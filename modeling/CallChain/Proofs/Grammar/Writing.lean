import CallChain.Regex.Printer
import CallChain.Proofs.Grammar.Derivation
import CallChain.Proofs.Grammar.Scanning
import CallChain.Proofs.Lists

/-!
# The tokens of written forms

Each place of a written form asks for a precedence, and what is written there is derived from the
production of that precedence (`Writes`): parentheses are put where the production has no place for
the expression without them. Only the places of names are lost on the way (`withoutSpans`).

An operand that is made nonempty is written between square brackets, which no production has.

* `printAt_eq_wrap`: where a written form has parentheses.
* `scans_print`: the tokens of a written form.
* `bracket_mem_printAt`, `not_noGarbage_of_bracket`: written forms with brackets.
-/

namespace CallChain

namespace Regex

/-! ### Expressions -/

mutual

/-- Every sequence and every choice has at least two operands. -/
def Branching : Regex → Prop
  | literal _ => True
  | ref _ => True
  | anchor _ => True
  | concat operands => 2 ≤ operands.length ∧ BranchingAll operands
  | alt operands => 2 ≤ operands.length ∧ BranchingAll operands
  | quantified operand _ => Branching operand
  | nonEmpty operand => Branching operand

def BranchingAll : List Regex → Prop
  | [] => True
  | operand :: operands => Branching operand ∧ BranchingAll operands

end

mutual

/-- No operand is made nonempty. -/
def Plain : Regex → Prop
  | literal _ => True
  | ref _ => True
  | anchor _ => True
  | concat operands => PlainAll operands
  | alt operands => PlainAll operands
  | quantified operand _ => Plain operand
  | nonEmpty _ => False

def PlainAll : List Regex → Prop
  | [] => True
  | operand :: operands => Plain operand ∧ PlainAll operands

end

mutual

theorem written_iff : ∀ expr : Regex, expr.Written ↔ expr.Branching ∧ expr.Plain
  | literal _ => iff_of_true trivial ⟨trivial, trivial⟩
  | ref _ => iff_of_true trivial ⟨trivial, trivial⟩
  | anchor _ => iff_of_true trivial ⟨trivial, trivial⟩
  | concat operands => by rw [Written, Branching, Plain, writtenAll_iff operands, and_assoc]
  | alt operands => by rw [Written, Branching, Plain, writtenAll_iff operands, and_assoc]
  | quantified operand _ => by rw [Written, Branching, Plain, written_iff operand]
  | nonEmpty _ => iff_of_false id And.right

theorem writtenAll_iff : ∀ operands : List Regex,
    WrittenAll operands ↔ BranchingAll operands ∧ PlainAll operands
  | [] => iff_of_true trivial ⟨trivial, trivial⟩
  | operand :: operands => by
    rw [WrittenAll, BranchingAll, PlainAll, written_iff operand, writtenAll_iff operands,
      and_and_and_comm]

end

mutual

/-- The same expression, its names without a place. -/
def withoutSpans : Regex → Regex
  | literal name => literal ⟨name.text, .unplaced⟩
  | ref name => ref ⟨name.text, .unplaced⟩
  | anchor mark => anchor mark
  | concat operands => concat (withoutSpansAll operands)
  | alt operands => alt (withoutSpansAll operands)
  | quantified operand q => quantified (withoutSpans operand) q
  | nonEmpty operand => nonEmpty (withoutSpans operand)

def withoutSpansAll : List Regex → List Regex
  | [] => []
  | operand :: operands => withoutSpans operand :: withoutSpansAll operands

end

mutual

/-- Where names stand does not show in a written form. -/
theorem printAt_withoutSpans (needed : Nat) : ∀ expr : Regex,
    printAt needed expr.withoutSpans = printAt needed expr
  | literal _ => rfl
  | ref _ => rfl
  | anchor _ => rfl
  | concat operands => by
    rw [withoutSpans, printAt, printAt, printAll_withoutSpansAll 2 operands]
  | alt operands => by
    rw [withoutSpans, printAt, printAt, printAll_withoutSpansAll 1 operands]
  | quantified operand q => by
    rw [withoutSpans, printAt, printAt, printAt_withoutSpans 2 operand]
  | nonEmpty operand => by
    rw [withoutSpans, printAt, printAt, printAt_withoutSpans 0 operand]

theorem printAll_withoutSpansAll (needed : Nat) : ∀ operands : List Regex,
    printAll needed (withoutSpansAll operands) = printAll needed operands
  | [] => rfl
  | operand :: operands => by
    rw [withoutSpansAll, printAll, printAll, printAt_withoutSpans needed operand,
      printAll_withoutSpansAll needed operands]

end

theorem wrap_of_le {needed actual : Nat} (h : needed ≤ actual) (content : String) :
    wrap needed actual content = content := if_neg (Nat.not_lt.2 h)

/-- Parentheses are put around what binds looser than its place asks for, and nowhere else. -/
theorem printAt_eq_wrap {needed : Nat} (hneeded : needed ≤ 2) (expr : Regex) :
    printAt needed expr = wrap needed expr.precedence expr.print := by
  cases expr with
  | literal | ref | anchor | nonEmpty | quantified => exact (wrap_of_le hneeded _).symm
  | concat | alt => rfl

theorem print_eq_of_withoutSpans_eq {expr expr' : Regex}
    (h : expr.withoutSpans = expr'.withoutSpans) : expr.print = expr'.print := by
  rw [print, ← printAt_withoutSpans, h, printAt_withoutSpans]
  rfl

theorem printAll_eq_map (needed : Nat) (operands : List Regex) :
    printAll needed operands = operands.map (printAt needed) := by
  induction operands with
  | nil => rfl
  | cons operand operands ih => rw [printAll, ih, List.map_cons]

end Regex

open Regex

/-! ### Productions by precedence -/

/-- The production of a precedence. -/
def Derives : Nat → List Token → Regex → Prop
  | 0 => DerivesUnion
  | 1 => DerivesConcat
  | _ => DerivesModified

section Derives

variable {ts : List Token} {expr : Regex} {needed actual : Nat}

theorem DerivesAtomic.modified (h : DerivesAtomic ts expr) : DerivesModified ts expr := by
  have hnone : ∀ mark ∈ ([] : List (Token × Quantifier)), mark.1.kind = mark.2.tokenKind :=
    fun _ hmark => nomatch hmark
  have hmodified := DerivesModified.modified h hnone
  rwa [List.map_nil, List.append_nil] at hmodified

theorem DerivesModified.concat (h : DerivesModified ts expr) : DerivesConcat ts expr := by
  have hconcat := DerivesConcat.concat h .nil
  rwa [List.append_nil] at hconcat

theorem DerivesConcat.union (h : DerivesConcat ts expr) : DerivesUnion ts expr := by
  have hunion := DerivesUnion.union h .nil
  rwa [List.append_nil] at hunion

/-- What binds tighter stands where something looser may. -/
theorem Derives.of_le (h : Derives actual ts expr) (hle : needed ≤ actual) :
    Derives needed ts expr := by
  match needed, actual with
  | 0, 0 => exact h
  | 0, 1 => exact DerivesConcat.union h
  | 0, _ + 2 => exact (DerivesModified.concat h).union
  | 1, 1 => exact h
  | 1, _ + 2 => exact DerivesModified.concat h
  | _ + 2, _ + 2 => exact h
  | _ + 1, 0 => omega
  | _ + 2, 1 => omega

/-- One more quantifier. -/
theorem DerivesModified.quantified (h : DerivesModified ts expr) {mark : Token} {q : Quantifier}
    (hmark : mark.kind = q.tokenKind) : DerivesModified (ts ++ [mark]) (.quantified expr q) := by
  cases h with
  | @modified ts operand marks hoperand hmarks =>
    have hall : ∀ m ∈ marks ++ [(mark, q)], m.1.kind = m.2.tokenKind :=
      List.forall_mem_append.2 ⟨hmarks, List.forall_mem_singleton.2 hmark⟩
    have hmodified := DerivesModified.modified hoperand hall
    rw [List.map_append, ← List.append_assoc, List.foldl_append] at hmodified
    exact hmodified

end Derives

/-! ### Written forms -/

/-- Tokens that are derived from a production, up to where the names stand. -/
def Writes (needed : Nat) (expr : Regex) (ts : List Token) : Prop :=
  ∃ expr', Derives needed ts expr' ∧ expr'.withoutSpans = expr.withoutSpans

section Written

variable {expr first : Regex} {operands rest : List Regex} {needed : Nat}

/-- What stands in parentheses stands anywhere. -/
theorem scans_wrap (actual : Nat) {content : String}
    (h : Scans content.toList (Writes actual expr)) (hneeded : needed ≤ 2) :
    Scans (wrap needed actual content).toList (Writes needed expr) := by
  unfold wrap
  split
  next =>
    have hclosing := scans_symbol (c := ')') rfl
    have hgroup := (h.append hclosing (endsName_cons rfl)).symbol (c := '(') rfl
    have htext : ("(" ++ content ++ ")").toList = '(' :: (content.toList ++ [')']) := by
      simp
    rw [htext]
    refine hgroup.mono ?_
    rintro ts ⟨opening, u, hopening, ⟨inner, v, ⟨expr', hexpr', hsame⟩, ⟨closing, hclosing, rfl⟩,
      rfl⟩, rfl⟩
    have hinside : DerivesUnion inner expr' := hexpr'.of_le (Nat.zero_le actual)
    have hatomic := DerivesAtomic.group hopening hinside hclosing
    have hmodified : Derives 2 _ expr' := hatomic.modified
    exact ⟨expr', hmodified.of_le hneeded, hsame⟩
  next hle =>
    refine h.mono ?_
    rintro ts ⟨expr', hexpr', hsame⟩
    exact ⟨expr', hexpr'.of_le (Nat.le_of_not_lt hle), hsame⟩

/-- Further operands of a choice, each behind a bar. -/
theorem scans_branches
    (h : ∀ operand ∈ operands, Scans (printAt 1 operand).toList (Writes 1 operand)) :
    Scans (operands.flatMap fun operand => " | ".toList ++ (printAt 1 operand).toList) fun ts =>
      ∃ exprs, DerivesBranches ts exprs ∧ withoutSpansAll exprs = withoutSpansAll operands := by
  induction operands with
  | nil =>
    refine scans_nil.mono ?_
    rintro ts rfl
    exact ⟨[], .nil, rfl⟩
  | cons operand operands ih =>
    rw [List.forall_mem_cons] at h
    have hends : EndsName (operands.flatMap fun operand =>
        " | ".toList ++ (printAt 1 operand).toList) := by
      cases operands with
      | nil => exact fun d hd => nomatch hd
      | cons => exact endsName_cons rfl
    have hboth := ((((h.1.append (ih h.2) hends).blank (c := ' ') rfl).symbol (c := '|') rfl).blank
      (c := ' ') rfl)
    rw [List.flatMap_cons, List.append_assoc]
    refine hboth.mono ?_
    rintro ts ⟨bar, u, hbar, ⟨v, w, ⟨expr, hexpr, hsame⟩, ⟨exprs, hexprs, hall⟩, rfl⟩, rfl⟩
    refine ⟨expr :: exprs, .cons hbar hexpr hexprs, ?_⟩
    rw [withoutSpansAll, withoutSpansAll, hsame, hall]

/-- Further operands of a sequence, each behind a blank. -/
theorem scans_factors
    (h : ∀ operand ∈ operands, Scans (printAt 2 operand).toList (Writes 2 operand)) :
    Scans (operands.flatMap fun operand => " ".toList ++ (printAt 2 operand).toList) fun ts =>
      ∃ exprs, DerivesFactors ts exprs ∧ withoutSpansAll exprs = withoutSpansAll operands := by
  induction operands with
  | nil =>
    refine scans_nil.mono ?_
    rintro ts rfl
    exact ⟨[], .nil, rfl⟩
  | cons operand operands ih =>
    rw [List.forall_mem_cons] at h
    have hends : EndsName (operands.flatMap fun operand =>
        " ".toList ++ (printAt 2 operand).toList) := by
      cases operands with
      | nil => exact fun d hd => nomatch hd
      | cons => exact endsName_cons rfl
    have hboth := (h.1.append (ih h.2) hends).blank (c := ' ') rfl
    rw [List.flatMap_cons, List.append_assoc]
    refine hboth.mono ?_
    rintro ts ⟨v, w, ⟨expr, hexpr, hsame⟩, ⟨exprs, hexprs, hall⟩, rfl⟩
    refine ⟨expr :: exprs, .cons hexpr hexprs, ?_⟩
    rw [withoutSpansAll, withoutSpansAll, hsame, hall]

/-- Joining operands that differ in the places of their names only. -/
theorem withoutSpans_joined {wrap : List Regex → Regex}
    (hwrap : ∀ operands operands', withoutSpansAll operands = withoutSpansAll operands' →
      (wrap operands).withoutSpans = (wrap operands').withoutSpans)
    {second first' : Regex} {rest' : List Regex}
    (hfirst : first'.withoutSpans = first.withoutSpans)
    (hrest : withoutSpansAll rest' = withoutSpansAll (second :: rest)) :
    (joined wrap first' rest').withoutSpans = (wrap (first :: second :: rest)).withoutSpans := by
  cases rest' with
  | nil => cases hrest
  | cons second' rest' =>
    refine hwrap _ _ ?_
    rw [withoutSpansAll, hrest, hfirst]
    rfl

end Written

namespace Regex

theorem mem_namesOf_cons {operand : Regex} {operands : List Regex} {name : Name}
    (h : name ∈ operand.names ∨ name ∈ namesOf operands) :
    name ∈ namesOf (operand :: operands) := by
  simp only [names, namesOf, literalsOf, refsOf, List.mem_append] at h ⊢
  grind

end Regex

/-- A list of operands, the first of which is written before the separators. -/
theorem toList_intercalate_printAll (separator : String) (needed : Nat) (first : Regex)
    (rest : List Regex) : (separator.intercalate (printAll needed (first :: rest))).toList =
      (printAt needed first).toList ++
        rest.flatMap fun operand => separator.toList ++ (printAt needed operand).toList := by
  rw [String.toList_intercalate, printAll_eq_map, List.map_cons, List.map_cons,
    intercalate_cons_eq_flatMap, List.map_map, List.flatMap_map]
  rfl

theorem exists_cons_cons {operands : List Regex} (h : 2 ≤ operands.length) :
    ∃ first second rest, operands = first :: second :: rest := by
  match operands with
  | first :: second :: rest => exact ⟨first, second, rest, rfl⟩
  | [] | [_] => simp at h

theorem scans_anchor (mark : Anchor) : Scans mark.symbol.toList fun ts =>
    ∃ token, token.kind = mark.tokenKind ∧ ts = [token] := by
  cases mark <;> exact scans_symbol rfl

theorem scans_quantifier (q : Quantifier) : Scans q.symbol.toList fun ts =>
    ∃ token, token.kind = q.tokenKind ∧ ts = [token] := by
  cases q <;> exact scans_symbol rfl

theorem endsName_quantifier (q : Quantifier) : EndsName q.symbol.toList := by
  cases q <;> exact endsName_cons rfl

/-- A written form stands in any place once it is parenthesized. -/
theorem scans_printAt (h : Scans expr.print.toList (Writes expr.precedence expr))
    (hneeded : needed ≤ 2) : Scans (printAt needed expr).toList (Writes needed expr) := by
  rw [printAt_eq_wrap hneeded]
  exact scans_wrap expr.precedence h hneeded

mutual

/-- The tokens of a written form are derived from the production of its precedence. -/
theorem scans_print : ∀ expr : Regex, expr.Written →
    (∀ name ∈ expr.names, isIdentifier name.text = true) →
      Scans expr.print.toList (Writes expr.precedence expr)
  | .literal name, _, hnames => by
    refine (scans_name (hnames name List.mem_cons_self)).mono ?_
    rintro ts ⟨token, hkind, htext, rfl⟩
    refine ⟨_, (DerivesAtomic.ident hkind).modified, ?_⟩
    rw [withoutSpans, withoutSpans, htext]
  | .ref name, _, hnames => by
    have hname := scans_name (hnames name List.mem_cons_self)
    have hclosing := scans_symbol (c := '>') rfl
    have htext : (print (.ref name)).toList = '<' :: (name.text.toList ++ ['>']) := by
      simp [print, printAt]
    rw [htext]
    refine ((hname.append hclosing (endsName_cons rfl)).symbol (c := '<') rfl).mono ?_
    rintro ts ⟨opening, u, hopening, ⟨v, w, ⟨token, hkind, htoken, rfl⟩, ⟨closing, hclosing, rfl⟩,
      rfl⟩, rfl⟩
    refine ⟨_, (DerivesAtomic.reference hopening hkind hclosing).modified, ?_⟩
    rw [withoutSpans, withoutSpans, htoken]
  | .anchor mark, _, _ => by
    refine (scans_anchor mark).mono ?_
    rintro ts ⟨token, hkind, rfl⟩
    exact ⟨_, (DerivesAtomic.anchor hkind).modified, rfl⟩
  | .alt operands, hwritten, hnames => by
    have hoperands := scans_printAll operands hwritten.2 hnames 1 (by decide)
    obtain ⟨first, second, rest, rfl⟩ := exists_cons_cons hwritten.1
    rw [List.forall_mem_cons] at hoperands
    have htext : (print (.alt (first :: second :: rest))).toList = _ :=
      toList_intercalate_printAll " | " 1 first (second :: rest)
    rw [htext]
    -- a bar behind the first operand ends its last name
    refine (hoperands.1.append (scans_branches hoperands.2) (endsName_cons rfl)).mono ?_
    rintro ts ⟨u, v, ⟨expr, hexpr, hsame⟩, ⟨exprs, hexprs, hall⟩, rfl⟩
    refine ⟨_, DerivesUnion.union hexpr hexprs, withoutSpans_joined ?_ hsame hall⟩
    exact fun _ _ heq => congrArg Regex.alt heq
  | .concat operands, hwritten, hnames => by
    have hoperands := scans_printAll operands hwritten.2 hnames 2 (Nat.le_refl 2)
    obtain ⟨first, second, rest, rfl⟩ := exists_cons_cons hwritten.1
    rw [List.forall_mem_cons] at hoperands
    have htext : (print (.concat (first :: second :: rest))).toList = _ :=
      toList_intercalate_printAll " " 2 first (second :: rest)
    rw [htext]
    -- without the blank two names would be one
    refine (hoperands.1.append (scans_factors hoperands.2) (endsName_cons rfl)).mono ?_
    rintro ts ⟨u, v, ⟨expr, hexpr, hsame⟩, ⟨exprs, hexprs, hall⟩, rfl⟩
    refine ⟨_, DerivesConcat.concat hexpr hexprs, withoutSpans_joined ?_ hsame hall⟩
    exact fun _ _ heq => congrArg Regex.concat heq
  | .quantified operand q, hwritten, hnames => by
    have hoperand : Scans (printAt 2 operand).toList (Writes 2 operand) :=
      scans_printAt (scans_print operand hwritten hnames) (Nat.le_refl 2)
    have htext : (print (.quantified operand q)).toList =
        (printAt 2 operand).toList ++ q.symbol.toList := String.toList_append
    rw [htext]
    refine (hoperand.append (scans_quantifier q) (endsName_quantifier q)).mono ?_
    rintro ts ⟨u, v, ⟨expr, hexpr, hsame⟩, ⟨mark, hmark, rfl⟩, rfl⟩
    refine ⟨_, DerivesModified.quantified hexpr hmark, ?_⟩
    rw [withoutSpans, withoutSpans, hsame]
  | .nonEmpty _, hwritten, _ => hwritten.elim

theorem scans_printAll : ∀ operands : List Regex, WrittenAll operands →
    (∀ name ∈ namesOf operands, isIdentifier name.text = true) → ∀ needed ≤ 2,
      ∀ operand ∈ operands, Scans (printAt needed operand).toList (Writes needed operand)
  | [], _, _, _, _ => fun _ hoperand => nomatch hoperand
  | operand :: operands, hwritten, hnames, needed, hneeded => by
    rw [List.forall_mem_cons]
    have hfirst (name : Name) (hname : name ∈ operand.names) := hnames name
      (mem_namesOf_cons (.inl hname))
    have hrest (name : Name) (hname : name ∈ namesOf operands) := hnames name
      (mem_namesOf_cons (.inr hname))
    exact ⟨scans_printAt (scans_print operand hwritten.1 hfirst) hneeded,
      scans_printAll operands hwritten.2 hrest needed hneeded⟩

end

/-! ### Operands that are made nonempty -/

theorem mem_wrap {c : Char} {content : String} {needed actual : Nat} (h : c ∈ content.toList) :
    c ∈ (wrap needed actual content).toList := by
  unfold wrap
  split
  · rw [String.toList_append, String.toList_append]
    exact List.mem_append_left _ (List.mem_append_right _ h)
  · exact h

theorem mem_intercalate {c : Char} {separator s : String} {pieces : List String}
    (hs : s ∈ pieces) (hc : c ∈ s.toList) : c ∈ (separator.intercalate pieces).toList := by
  rw [String.toList_intercalate]
  cases pieces with
  | nil => cases hs
  | cons first rest =>
    rw [List.map_cons, intercalate_cons_eq_flatMap]
    rcases List.mem_cons.1 hs with rfl | hrest
    · exact List.mem_append_left _ hc
    · refine List.mem_append_right _ (List.mem_flatMap.2 ⟨s.toList, List.mem_map_of_mem hrest, ?_⟩)
      exact List.mem_append_right _ hc

mutual

/-- An operand that is made nonempty shows as a bracket. -/
theorem bracket_mem_printAt : ∀ expr : Regex, ¬expr.Plain → ∀ needed,
    '[' ∈ (printAt needed expr).toList
  | .literal _, h, _ => absurd trivial h
  | .ref _, h, _ => absurd trivial h
  | .anchor _, h, _ => absurd trivial h
  | .alt operands, h, needed => by
    obtain ⟨s, hs, hbracket⟩ := bracket_mem_printAll operands h 1
    exact mem_wrap (mem_intercalate hs hbracket)
  | .concat operands, h, needed => by
    obtain ⟨s, hs, hbracket⟩ := bracket_mem_printAll operands h 2
    exact mem_wrap (mem_intercalate hs hbracket)
  | .quantified operand q, h, needed => by
    rw [printAt, String.toList_append]
    exact List.mem_append_left _ (bracket_mem_printAt operand h 2)
  | .nonEmpty operand, _, needed => by
    rw [printAt, String.toList_append, String.toList_append]
    exact List.mem_append_left _ (List.mem_append_left _ (List.mem_singleton_self '['))

theorem bracket_mem_printAll : ∀ operands : List Regex, ¬PlainAll operands → ∀ needed,
    ∃ s ∈ printAll needed operands, '[' ∈ s.toList
  | [], h, _ => absurd trivial h
  | operand :: operands, h, needed => by
    rw [printAll]
    by_cases hplain : operand.Plain
    · have hrest : ¬PlainAll operands := fun hall => h ⟨hplain, hall⟩
      obtain ⟨s, hs, hbracket⟩ := bracket_mem_printAll operands hrest needed
      exact ⟨s, List.mem_cons_of_mem _ hs, hbracket⟩
    · exact ⟨_, List.mem_cons_self, bracket_mem_printAt operand hplain needed⟩

end

/-- A bracket is no token of the grammar. -/
theorem not_noGarbage_of_bracket {text : String} (h : '[' ∈ text.toList) :
    ¬NoGarbage (visible (tokens text)) := by
  intro hclean
  obtain ⟨token, htoken, hkind⟩ := exists_garbage_of_mem 0 (by decide) (by decide) h
  -- only blanks are left out of what the grammar sees
  refine hclean token (List.mem_filter.2 ⟨htoken, ?_⟩) hkind
  rw [hkind]
  rfl

end CallChain
