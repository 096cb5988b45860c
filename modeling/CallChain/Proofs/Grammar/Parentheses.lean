import CallChain.Proofs.Grammar.RoundTrip

/-!
# The fewest parentheses

A written form has a pair of parentheses for each operand that binds looser than its place asks for
(`count_print`), and no derivation has fewer: each production has a place for what binds as tightly
as its precedence, and what binds looser gets there through a group only (`DerivesUnion.parens_le`).
So no text that means an expression has fewer parentheses than the written form.

* `count_print`: the parentheses of a written form.
* `Spells.count_print_le`: the parentheses of a text that means the same.
* `print_fewest_parens`: a written form among all texts that mean the same.
-/

namespace CallChain

namespace Regex

/-! ### The parentheses that are needed -/

/-- The pairs that `wrap` adds. -/
def extra (needed actual : Nat) : Nat := if actual < needed then 1 else 0

mutual

/-- The pairs of parentheses inside of an expression. -/
def parens : Regex → Nat
  | literal _ => 0
  | ref _ => 0
  | anchor _ => 0
  | concat operands => parensOf 2 operands
  | alt operands => parensOf 1 operands
  | quantified operand _ => parens operand + extra 2 operand.precedence
  | nonEmpty operand => parens operand

/-- The pairs of parentheses inside of operands and around them. -/
def parensOf (needed : Nat) : List Regex → Nat
  | [] => 0
  | operand :: operands =>
    parens operand + extra needed operand.precedence + parensOf needed operands

end

/-- The pairs of parentheses of an expression in a place. -/
def parensAt (needed : Nat) (expr : Regex) : Nat := expr.parens + extra needed expr.precedence

variable {expr : Regex} {needed needed' : Nat}

theorem extra_le_one (needed actual : Nat) : extra needed actual ≤ 1 := by
  unfold extra
  split <;> omega

theorem extra_mono {actual : Nat} (h : needed ≤ needed') :
    extra needed actual ≤ extra needed' actual := by
  unfold extra
  split <;> split <;> omega

/-- A place that asks for nothing needs no parentheses. -/
theorem parensAt_zero (expr : Regex) : parensAt 0 expr = expr.parens := rfl

/-- A place that asks for more needs no fewer parentheses, and at most one pair more. -/
theorem parensAt_mono (h : needed ≤ needed') : parensAt needed expr ≤ parensAt needed' expr :=
  Nat.add_le_add_left (extra_mono h) expr.parens

theorem parensAt_le_parens_add_one : parensAt needed expr ≤ expr.parens + 1 :=
  Nat.add_le_add_left (extra_le_one needed _) expr.parens

/-- Quantifiers need no parentheses but those around what they follow first. -/
theorem parensAt_foldl (marks : List (Token × Quantifier)) (operand : Regex) :
    parensAt 2 (marks.foldl (fun operand mark => quantified operand mark.2) operand) =
      parensAt 2 operand := by
  induction marks generalizing operand with
  | nil => rfl
  | cons mark marks ih => exact ih (quantified operand mark.2)

/-- One operand needs what it needs by itself, and more of them what each of them needs. -/
theorem parensAt_joined_le {wrap : List Regex → Regex}
    (hwrap : ∀ operands, parensAt needed (wrap operands) = parensOf needed' operands)
    (h : needed ≤ needed') (first : Regex) (rest : List Regex) :
    parensAt needed (joined wrap first rest) ≤ parensAt needed' first + parensOf needed' rest := by
  cases rest with
  | nil => exact Nat.le_trans (parensAt_mono h) (Nat.le_add_right _ _)
  | cons second rest => exact Nat.le_of_eq (hwrap _)

/-! ### The parentheses of a written form -/

/-- No separator is counted. -/
theorem count_intercalate {c : Char} {separator : String} (hc : separator.toList.count c = 0)
    (pieces : List String) : (separator.intercalate pieces).toList.count c =
      (pieces.flatMap String.toList).count c := by
  cases pieces with
  | nil => rfl
  | cons first rest =>
    rw [String.toList_intercalate, List.map_cons, intercalate_cons_eq_flatMap, List.flatMap_cons,
      List.count_append, List.count_append, List.flatMap_map]
    refine congrArg (first.toList.count c + ·) ?_
    induction rest with
    | nil => rfl
    | cons second rest ih =>
      rw [List.flatMap_cons, List.flatMap_cons, List.count_append, List.count_append,
        List.count_append, hc, Nat.zero_add, ih]

theorem count_wrap (needed actual : Nat) (content : String) :
    (wrap needed actual content).toList.count '(' =
      content.toList.count '(' + extra needed actual := by
  unfold wrap extra
  split
  · have htext : ("(" ++ content ++ ")").toList = '(' :: (content.toList ++ [')']) := by simp
    rw [htext, List.count_cons_self, List.count_append]
    rfl
  · rfl

mutual

/-- A written form has the parentheses that are needed. -/
theorem count_print : ∀ expr : Regex, (∀ name ∈ expr.names, '(' ∉ name.text.toList) →
    expr.print.toList.count '(' = expr.parens
  | literal name, hnames => List.count_eq_zero.2 (hnames name List.mem_cons_self)
  | ref name, hnames => by
    have htext : (print (ref name)).toList = '<' :: (name.text.toList ++ ['>']) := by
      simp [print, printAt]
    have hname := List.count_eq_zero.2 (hnames name List.mem_cons_self)
    rw [htext, List.count_cons_of_ne (by decide), List.count_append, hname]
    rfl
  | anchor mark, _ => by cases mark <;> decide
  | concat operands, hnames => by
    rw [print, printAt, wrap_of_le (Nat.zero_le 1), count_intercalate (by decide),
      count_printAll (Nat.le_refl 2) operands hnames, parens]
  | alt operands, hnames => by
    rw [print, printAt, wrap_of_le (Nat.le_refl 0), count_intercalate (by decide),
      count_printAll (by decide) operands hnames, parens]
  | quantified operand q, hnames => by
    have hmark : q.symbol.toList.count '(' = 0 := by cases q <;> decide
    rw [print, printAt, String.toList_append, List.count_append, hmark,
      printAt_eq_wrap (Nat.le_refl 2), count_wrap, count_print operand hnames, parens,
      Nat.add_zero]
  | nonEmpty operand, hnames => by
    have htext : (print (nonEmpty operand)).toList = '[' :: (operand.print.toList ++ [']']) := by
      simp [print, printAt]
    rw [htext, List.count_cons_of_ne (by decide), List.count_append, count_print operand hnames]
    rfl

theorem count_printAll {needed : Nat} (hneeded : needed ≤ 2) : ∀ operands : List Regex,
    (∀ name ∈ namesOf operands, '(' ∉ name.text.toList) →
      ((printAll needed operands).flatMap String.toList).count '(' = parensOf needed operands
  | [], _ => rfl
  | operand :: operands, hnames => by
    have hfirst := count_print operand fun name hname => hnames name (mem_namesOf_cons (.inl hname))
    have hrest := count_printAll hneeded operands fun name hname =>
      hnames name (mem_namesOf_cons (.inr hname))
    rw [printAll, List.flatMap_cons, List.count_append, hrest, printAt_eq_wrap hneeded, count_wrap,
      hfirst, parensOf]

end

end Regex

open Regex

/-! ### The parentheses of a derivation -/

/-- The number of tokens that open a group. -/
def opens (ts : List Token) : Nat := ts.countP (·.kind = .parenOpen)

@[simp] theorem opens_append (ts ts' : List Token) : opens (ts ++ ts') = opens ts + opens ts' :=
  List.countP_append

theorem opens_le_cons (token : Token) (ts : List Token) : opens ts ≤ opens (token :: ts) :=
  (List.sublist_cons_self token ts).countP_le

theorem opens_cons_of_eq {token : Token} {ts : List Token} (h : token.kind = .parenOpen) :
    opens (token :: ts) = opens ts + 1 :=
  List.countP_cons_of_pos (decide_eq_true h)

mutual

/-- What is derived has the parentheses that are needed. -/
theorem DerivesUnion.parens_le : ∀ {ts : List Token} {expr : Regex},
    DerivesUnion ts expr → expr.parens ≤ opens ts
  | _, _, .union hfirst hrest => by
    rw [opens_append, ← parensAt_zero]
    refine Nat.le_trans ?_ (Nat.add_le_add hfirst.parens_le hrest.parens_le)
    exact parensAt_joined_le (fun _ => rfl) (by decide) _ _

theorem DerivesBranches.parens_le : ∀ {ts : List Token} {rest : List Regex},
    DerivesBranches ts rest → parensOf 1 rest ≤ opens ts
  | _, _, .nil => Nat.zero_le _
  | _, _, .cons _ hoperand hrest => by
    refine Nat.le_trans ?_ (opens_le_cons _ _)
    rw [opens_append]
    exact Nat.add_le_add hoperand.parens_le hrest.parens_le

theorem DerivesConcat.parens_le : ∀ {ts : List Token} {expr : Regex},
    DerivesConcat ts expr → parensAt 1 expr ≤ opens ts
  | _, _, .concat hfirst hrest => by
    rw [opens_append]
    refine Nat.le_trans ?_ (Nat.add_le_add hfirst.parens_le hrest.parens_le)
    exact parensAt_joined_le (fun _ => rfl) (by decide) _ _

theorem DerivesFactors.parens_le : ∀ {ts : List Token} {rest : List Regex},
    DerivesFactors ts rest → parensOf 2 rest ≤ opens ts
  | _, _, .nil => Nat.zero_le _
  | _, _, .cons hoperand hrest => by
    rw [opens_append]
    exact Nat.add_le_add hoperand.parens_le hrest.parens_le

theorem DerivesModified.parens_le : ∀ {ts : List Token} {expr : Regex},
    DerivesModified ts expr → parensAt 2 expr ≤ opens ts
  | _, _, .modified hoperand _ => by
    rw [parensAt_foldl, opens_append]
    exact Nat.le_trans hoperand.parens_le (Nat.le_add_right _ _)

theorem DerivesAtomic.parens_le : ∀ {ts : List Token} {expr : Regex},
    DerivesAtomic ts expr → parensAt 2 expr ≤ opens ts
  | _, _, .group hopening hinside _ => by
    -- a group has a place for anything, at the price of one pair
    rw [opens_cons_of_eq hopening, opens_append]
    refine Nat.le_trans parensAt_le_parens_add_one (Nat.add_le_add_right ?_ 1)
    exact Nat.le_trans hinside.parens_le (Nat.le_add_right _ _)
  | _, _, .ident _ => Nat.zero_le _
  | _, _, .reference _ _ _ => Nat.zero_le _
  | _, _, .anchor _ => Nat.zero_le _

end

/-! ### The parentheses of a text -/

/-- Elements that each hold a character make a text with this character as often. -/
theorem countP_le_count_flatMap {α : Type} {p : α → Bool} {f : α → List Char} {c : Char}
    {xs : List α} (h : ∀ x ∈ xs, p x = true → c ∈ f x) : xs.countP p ≤ (xs.flatMap f).count c := by
  induction xs with
  | nil => exact Nat.zero_le _
  | cons x xs ih =>
    rw [List.forall_mem_cons] at h
    rw [List.flatMap_cons, List.count_append, List.countP_cons, Nat.add_comm]
    refine Nat.add_le_add ?_ (ih h.2)
    split
    · next hx => exact List.count_pos_iff.2 (h.1 hx)
    · exact Nat.zero_le _

/-- A text has a parenthesis for each group. -/
theorem opens_visible_le (text : String) :
    opens (visible (tokens text)) ≤ text.toList.count '(' := by
  have hall : opens (tokens text) ≤ ((tokens text).flatMap (·.text.toList)).count '(' := by
    refine countP_le_count_flatMap fun token htoken hkind => ?_
    have hsymbol : symbolKind? '(' = some token.kind := by
      rw [of_decide_eq_true hkind]
      rfl
    rw [text_of_symbolKind? htoken hsymbol, String.toList_ofList]
    exact List.mem_singleton_self _
  rw [text_tokens] at hall
  exact Nat.le_trans List.filter_sublist.countP_le hall

/-- A text that is read without a report, with some limit, and means an expression, apart from where
its names stand. -/
def Spells (text : String) (expr : Regex) : Prop :=
  ∃ source limit p expr', parse text source limit = .ok p ∧ p.diagnostics = [] ∧
    Regex.ofRoot? p.root = some expr' ∧ expr'.withoutSpans = expr.withoutSpans

theorem not_mem_of_isIdentifier {text : String} (h : isIdentifier text = true) :
    '(' ∉ text.toList := by
  obtain ⟨c, cs, htext, hc, hcs⟩ := isIdentifier_iff.1 h
  rw [htext, List.mem_cons, not_or]
  constructor
  · rintro rfl
    cases hc
  · exact fun hmem => absurd (hcs _ hmem) (by decide)

/-- No text that means an expression has fewer parentheses than its written form. -/
theorem Spells.count_print_le {text : String} {expr : Regex} (h : Spells text expr) :
    expr.print.toList.count '(' ≤ text.toList.count '(' := by
  obtain ⟨source, limit, p, expr', hparse, hclean, hroot, hsame⟩ := h
  obtain ⟨expr'', hderives⟩ := exists_derives_of_clean hparse hclean
  obtain rfl : expr'' = expr' :=
    Option.some.inj ((ofRoot?_of_derives hparse hderives).2.symm.trans hroot)
  have hnames : ∀ name ∈ expr''.names, '(' ∉ name.text.toList := by
    intro name hname
    obtain ⟨token, htoken, hkind, rfl⟩ := hderives.identifiedIn name hname
    exact not_mem_of_isIdentifier
      (isIdentifier_of_mem_tokens (List.mem_filter.1 htoken).1 hkind)
  rw [← print_eq_of_withoutSpans_eq hsame, count_print _ hnames]
  exact Nat.le_trans hderives.parens_le (opens_visible_le text)

/-- A written form has the fewest parentheses. With names that are identifiers, with at least two
operands in every sequence and choice, and where no operand is made nonempty, it is read as the
expression itself, apart from where its names stand, and every other text that is read so without a
report, whatever the limit, has at least as many opening parentheses. -/
theorem print_fewest_parens {expr : Regex} (hbranching : expr.Branching) (hplain : expr.Plain)
    (hnames : ∀ name ∈ expr.names, isIdentifier name.text = true) :
    Spells expr.print expr ∧
      ∀ text, Spells text expr → expr.print.toList.count '(' ≤ text.toList.count '(' := by
  refine ⟨?_, fun text h => h.count_print_le⟩
  obtain ⟨expr', hderives, hsame⟩ := exists_derives_print hbranching hplain hnames
  obtain ⟨p, hp⟩ := exists_parse_eq_ok expr.print ⟨0⟩ (length_visible_tokens_le expr.print)
  obtain ⟨hclean, hroot⟩ := ofRoot?_of_derives hp hderives
  exact ⟨⟨0⟩, _, p, expr', hp, hclean, hroot, hsame⟩

theorem print_fewest_parens_starredGroup : Spells "(a | <b>)* c" starredGroup ∧
    ∀ text, Spells text starredGroup → 1 ≤ text.toList.count '(' := by
  have hprint : starredGroup.print = "(a | <b>)* c" := by decide
  have hbranching : starredGroup.Branching :=
    ⟨by decide, ⟨by decide, trivial, trivial, trivial⟩, trivial, trivial⟩
  have hplain : starredGroup.Plain := ⟨⟨trivial, trivial, trivial⟩, trivial, trivial⟩
  obtain ⟨hspells, hfewest⟩ := print_fewest_parens hbranching hplain (by decide)
  rw [hprint] at hspells hfewest
  exact ⟨hspells, hfewest⟩

end CallChain
