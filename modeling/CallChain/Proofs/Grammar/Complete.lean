import CallChain.Proofs.Grammar.Sound
import CallChain.Regex.Lowering

/-!
# A derived text is read without reports

Where tokens that are derived from a production lie ahead, followed by one that cannot continue it,
the production takes exactly these tokens, reports nothing, and its trees mean what is derived. The
proof follows the derivation: one token ahead tells which of its rules is used.

* `means_union`: where a derived text lies ahead, it is read, and its tree means what is derived.
* `parse_grammar`: what the reader accepts, and what it makes of it.
-/

namespace CallChain

/-! ### What can follow -/

/-- The next token, if there is one, fails a test. -/
def Stops (test : SyntaxKind → Bool) (ts : List Token) : Prop :=
  ∀ token ∈ ts.head?, test token.kind = false

namespace KindSet

/-- What continues a sequence. -/
def continuesConcat (k : SyntaxKind) : Bool := quantifiers.contains k || atomFirst.contains k

/-- What continues a choice. -/
def continuesUnion (k : SyntaxKind) : Bool := continuesConcat k || k = .pipe

end KindSet

/-- A token that fails a test fails every narrower one. -/
theorem Stops.mono {test test' : SyntaxKind → Bool} {ts : List Token} (h : Stops test ts)
    (himp : ∀ k, test' k = true → test k = true) : Stops test' ts := by
  intro token htoken
  cases htest : test' token.kind with
  | false => rfl
  | true =>
    have hstop := h token htoken
    rw [himp _ htest] at hstop
    cases hstop

theorem Stops.atomFirst {ts : List Token} (h : Stops KindSet.continuesConcat ts) :
    Stops KindSet.atomFirst.contains ts :=
  h.mono fun k hk => by rw [KindSet.continuesConcat, hk, Bool.or_true]

theorem stops_cons {test : SyntaxKind → Bool} {token : Token} {ts : List Token}
    (h : test token.kind = false) : Stops test (token :: ts) := by
  intro other hother
  cases Option.some.inj hother
  exact h

/-- Tokens that begin with the first token of an atom. -/
def StartsAtom (ts : List Token) : Prop :=
  ∃ token rest, ts = token :: rest ∧ KindSet.atomFirst.contains token.kind = true

theorem StartsAtom.append {ts : List Token} (h : StartsAtom ts) (ts' : List Token) :
    StartsAtom (ts ++ ts') := by
  obtain ⟨token, rest, rfl, hkind⟩ := h
  exact ⟨token, rest ++ ts', rfl, hkind⟩

/-- No atom begins with a quantifier. -/
theorem StartsAtom.stops_quantifiers {ts : List Token} (h : StartsAtom ts) :
    Stops KindSet.quantifiers.contains ts := by
  obtain ⟨token, rest, rfl, hkind⟩ := h
  refine stops_cons ?_
  cases hk : token.kind <;> rw [hk] at hkind <;> first | rfl | cases hkind

/-- Whatever is derived, from this production or one above it, begins with an atom. -/
theorem DerivesAtomic.startsAtom {ts : List Token} {expr : Regex} (h : DerivesAtomic ts expr) :
    StartsAtom ts := by
  cases h with
  | group hopening hinside hclosing => exact ⟨_, _, rfl, by rw [hopening]; decide⟩
  | ident hname => exact ⟨_, _, rfl, by rw [hname]; decide⟩
  | reference hopening hname hclosing => exact ⟨_, _, rfl, by rw [hopening]; decide⟩
  | @anchor mark a hmark => exact ⟨_, _, rfl, by rw [hmark]; cases a <;> decide⟩

theorem DerivesModified.startsAtom {ts : List Token} {expr : Regex}
    (h : DerivesModified ts expr) : StartsAtom ts := by
  cases h with
  | modified hoperand hmarks => exact hoperand.startsAtom.append _

theorem DerivesConcat.startsAtom {ts : List Token} {expr : Regex}
    (h : DerivesConcat ts expr) : StartsAtom ts := by
  cases h with
  | concat hfirst hrest => exact hfirst.startsAtom.append _

theorem DerivesUnion.startsAtom {ts : List Token} {expr : Regex}
    (h : DerivesUnion ts expr) : StartsAtom ts := by
  cases h with
  | union hfirst hrest => exact hfirst.startsAtom.append _

/-! ### Meanings of forests

The meanings of a forest are those of its nodes, in order: tokens mean nothing by themselves. -/

namespace Regex

theorem meaningsOf_append (f g : Forest) : meaningsOf (f ++ g) = meaningsOf f ++ meaningsOf g := by
  induction f with
  | nil => rfl
  | cons tree f ih =>
    rw [List.cons_append, meaningsOf, meaningsOf]
    split
    · rw [ih, List.cons_append]
    · exact ih

theorem meaningsOf_leaves (ts : List Token) : meaningsOf (ts.map .leaf) = [] := by
  induction ts with
  | nil => rfl
  | cons token ts ih => exact ih

theorem meaningsOf_node (kind : SyntaxKind) (children : Forest) :
    meaningsOf [.node kind children] = [ofNode? kind children (meaningsOf children)] := rfl

/-- Two operands are enough for a concatenation or a choice. -/
theorem operands?_map_some {operands : List Regex} (h : 2 ≤ operands.length) :
    operands? (operands.map some) = some operands := by
  have hmapM : (operands.map some).mapM (fun operand => operand) = some operands := by
    clear h
    induction operands with
    | nil => rfl
    | cons operand operands ih =>
      rw [List.map_cons, List.mapM_cons, ih]
      rfl
  rw [operands?, hmapM]
  show (if operands.length < 2 then none else some operands) = some operands
  rw [if_neg (by omega)]

end Regex

theorem Tree.firstToken?_append (f g : Forest) (test : SyntaxKind → Bool) :
    firstToken? (f ++ g) test = (firstToken? f test).or (firstToken? g test) :=
  List.findSome?_append

theorem Taken.meaningsOf_eq {f : Forest} {token : Token} (h : Taken f token) :
    Regex.meaningsOf f = [] := by
  obtain ⟨blanks, -, rfl⟩ := h
  exact Regex.meaningsOf_leaves _

/-- The token that is taken is the only one that a test can find. -/
theorem Taken.firstToken?_eq {f : Forest} {token : Token} {test : SyntaxKind → Bool}
    (h : Taken f token) (hblank : test .whitespace = false) :
    Tree.firstToken? f test = if test token.kind then some token else none := by
  obtain ⟨blanks, hblanks, rfl⟩ := h
  induction blanks with
  | nil =>
    show ([Tree.leaf token].findSome? _) = _
    rw [List.findSome?_singleton]
  | cons blank blanks ih =>
    rw [List.forall_mem_cons] at hblanks
    have hkind : blank.kind = .whitespace := of_decide_eq_true hblanks.1
    rw [← ih hblanks.2]
    show (Tree.leaf blank :: _).findSome? _ = _
    rw [List.findSome?_cons]
    simp only [hkind, hblank]
    rfl

namespace Parser

open ParseState KindSet Regex

variable {s s' : ParseState} {f : Forest} {input : Input} {ts rest : List Token}

/-! ### One token ahead

The reader decides by the kind of the next token that is no blank. -/

theorem Ready.any_eq_false {test : SyntaxKind → Bool} (h : s.Ready ts) (hstop : Stops test ts) :
    s.next.any test = false := by
  rw [next, h.words_eq]
  cases ts with
  | nil => rfl
  | cons token ts => exact hstop token rfl

theorem Ready.startsAtom (h : s.Ready ts) (hstarts : StartsAtom ts) :
    s.next.any atomFirst.contains = true := by
  obtain ⟨token, rest, rfl, hkind⟩ := hstarts
  rw [h.next_eq]
  exact hkind

theorem Ready.next_ne_pipe (h : s.Ready ts) (hstop : Stops continuesUnion ts) :
    s.next ≠ some .pipe := by
  intro hnext
  have hfalse := Ready.any_eq_false h hstop
  rw [hnext] at hfalse
  cases hfalse

/-! ### Atoms -/

theorem contains_quantifier (q : Quantifier) : quantifiers.contains q.tokenKind = true := by
  cases q <;> rfl

theorem quantifierOf_tokenKind (q : Quantifier) : quantifierOf q.tokenKind = q := by
  cases q <;> rfl

theorem anchorOf_tokenKind (a : Anchor) : anchorOf a.tokenKind = a := by
  cases a <;> rfl

/-- A token of the kind that lies ahead is taken. -/
theorem ready_of_eat? {token : Token} {o : Option Forest} {kind : SyntaxKind}
    (h : Reads (eat? kind) s o s') (hready : s.Ready (token :: rest)) (hkind : token.kind = kind) :
    s'.Ready rest ∧ ∃ f, o = some f ∧ Taken f token := by
  rcases reads_eat? h with ⟨f, taken, rfl, -, htakes, htaken⟩ | ⟨-, hnext, -⟩
  · have hsame : taken = token := by
      have hwords := htakes.words_eq
      rw [hready.words_eq] at hwords
      exact (List.cons.inj hwords).1.symm
    subst hsame
    have hready : s.Ready ([taken] ++ rest) := hready
    exact ⟨hready.takes htakes, f, rfl, htaken hready.sane⟩
  · exact absurd (hready.next_eq.trans (congrArg some hkind)) hnext

/-- The token that is taken is the one that lies ahead. -/
theorem ready_of_takes {token taken : Token} (htakes : s.Takes [taken] s')
    (hready : s.Ready (token :: rest)) : taken = token ∧ s'.Ready rest := by
  have hwords := htakes.words_eq
  rw [hready.words_eq] at hwords
  have hsame : token = taken := (List.cons.inj hwords).1
  subst hsame
  have hready : s.Ready ([token] ++ rest) := hready
  exact ⟨rfl, hready.takes htakes⟩

/-- Atoms are read into one node, which means what is derived. -/
def MeansAtom (f : Forest) (expr : Regex) : Prop :=
  ∃ kind children, f = [.node kind children] ∧ meaningsOf f = [some expr]

/-- A name is read into a literal. -/
theorem means_ident {name : Token} (h : Reads (leaf .ident) s f s')
    (hready : s.Ready (name :: rest)) (hname : name.kind = .id) :
    s'.Ready rest ∧ MeansAtom f (.literal ⟨name.text, name.span⟩) := by
  obtain ⟨token, taken, htakes, htaken, rfl⟩ := reads_leaf h
  obtain ⟨rfl, hready'⟩ := ready_of_takes htakes hready
  refine ⟨hready', _, _, rfl, ?_⟩
  rw [meaningsOf_node, ofNode?, nameIn?, (htaken hready.sane).firstToken?_eq rfl, hname]
  rfl

/-- A mark is read into the anchor that it stands for. -/
theorem means_anchor {mark : Token} {a : Anchor} (h : Reads (leaf .anchor) s f s')
    (hready : s.Ready (mark :: rest)) (hmark : mark.kind = a.tokenKind) :
    s'.Ready rest ∧ MeansAtom f (.anchor a) := by
  obtain ⟨token, taken, htakes, htaken, rfl⟩ := reads_leaf h
  obtain ⟨rfl, hready'⟩ := ready_of_takes htakes hready
  refine ⟨hready', _, _, rfl, ?_⟩
  have hfound : anchors.contains token.kind = true := by
    rw [hmark]
    cases a <;> decide
  rw [meaningsOf_node, ofNode?, (htaken hready.sane).firstToken?_eq rfl, if_pos hfound,
    Option.map_some, hmark, anchorOf_tokenKind]

/-- A name in angle brackets is read into a reference. -/
theorem means_reference {opening name closing : Token} (h : ReferenceRun s f s')
    (hready : s.Ready (opening :: name :: closing :: rest)) (hopening : opening.kind = .angleOpen)
    (hname : name.kind = .id) (hclosing : closing.kind = .angleClose) :
    s'.Ready rest ∧ MeansAtom f (.ref ⟨name.text, name.span⟩) := by
  cases h with
  | run htakes hbracket heat hmissing heat' hunclosed =>
    obtain ⟨rfl, hready₁⟩ := ready_of_takes htakes hready
    obtain ⟨hready₂, nameForest, rfl, htaken⟩ := ready_of_eat? heat hready₁ hname
    have hready₃ := hready₂.pass (hmissing.takes (by simp))
    obtain ⟨hready₄, closingForest, rfl, htaken'⟩ := ready_of_eat? heat' hready₃ hclosing
    refine ⟨hready₄.pass (hunclosed.takes (by simp)), _, _, rfl, ?_⟩
    rw [meaningsOf_node, ofNode?, nameIn?, Option.getD_some, Option.getD_some,
      Tree.firstToken?_append, Tree.firstToken?_append,
      (hbracket hready.sane).firstToken?_eq rfl, htaken.firstToken?_eq rfl, hopening, hname]
    rfl

/-- A group means what is inside of it. -/
theorem means_group {reader : Parser Forest} {opening closing : Token} {expr : Regex}
    (h : GroupRun reader s f s') (hready : s.Ready (opening :: (ts ++ closing :: rest)))
    (hstarts : StartsAtom ts) (hclosing : closing.kind = .parenClose)
    (hinside : ∀ s f s', Reads reader s f s' → s.Ready (ts ++ closing :: rest) →
      s'.Ready (closing :: rest) ∧ meaningsOf f = [some expr]) :
    s'.Ready rest ∧ MeansAtom f expr := by
  cases h with
  | @run _ bracket body _ _ s₂ _ _ _ htakes hbracket hbody heat hunclosed hend =>
    obtain ⟨rfl, hready₁⟩ := ready_of_takes htakes hready
    have hread : s₂.Ready (closing :: rest) ∧ meaningsOf body = [some expr] := by
      obtain ⟨token, more, rfl, hkind⟩ := hstarts
      rw [List.cons_append] at hready₁
      -- the group is neither empty nor cut off, since an atom lies ahead
      cases hbody with
      | empty hnext =>
        rw [hready₁.next_eq] at hnext
        rw [Option.some.inj hnext] at hkind
        cases hkind
      | ended hwords =>
        rw [hready₁.words_eq] at hwords
        cases hwords
      | read htakes hbody => exact hinside _ _ _ hbody (hready₁.pass htakes)
    obtain ⟨hready₃, closingForest, rfl, htaken⟩ := ready_of_eat? heat hread.1 hclosing
    refine ⟨(hready₃.pass (hunclosed.takes (by simp))).pass hend, _, _, rfl, ?_⟩
    rw [meaningsOf_node, ofNode?, Option.getD_some, meaningsOf_append, meaningsOf_append,
      (hbracket hready.sane).meaningsOf_eq, htaken.meaningsOf_eq, hread.2]
    rfl

theorem exists_of_insideOf {room : Nat} {reader : Parser Forest}
    (h : insideOf input room = some reader) : ∃ room, reader = regex input room := by
  cases room with
  | zero => cases h
  | succ room => exact ⟨room, (Option.some.inj h).symm⟩

/-! ### Quantifiers -/

/-- Each quantifier of a run is wrapped around what has been read before it. -/
theorem means_quantified {marks : List (Token × Quantifier)} {operand : Forest} {expr : Regex}
    (h : QuantifiedRun operand s f s') (hready : s.Ready (marks.map (·.1) ++ rest))
    (hmarks : ∀ mark ∈ marks, mark.1.kind = mark.2.tokenKind)
    (hstop : Stops quantifiers.contains rest) (hmeans : MeansAtom operand expr) :
    s'.Ready rest ∧ MeansAtom f
      (marks.foldl (fun operand mark => .quantified operand mark.2) expr) := by
  -- by the marks: the operand that has been read grows by one quantifier at a time
  induction marks generalizing operand expr s s' with
  | nil =>
    cases h with
    | stop _ htakes => exact ⟨hready.pass htakes, hmeans⟩
    | wrap hnext =>
      rw [Ready.any_eq_false hready hstop] at hnext
      cases hnext
  | cons mark marks ih =>
    rw [List.forall_mem_cons] at hmarks
    have hfound : quantifiers.contains mark.1.kind = true :=
      hmarks.1 ▸ contains_quantifier mark.2
    have hready : s.Ready (mark.1 :: (marks.map (·.1) ++ rest)) := hready
    cases h with
    | stop hnext =>
      rw [hready.next_eq] at hnext
      have hnext : quantifiers.contains mark.1.kind = false := hnext
      rw [hfound] at hnext
      cases hnext
    | @wrap _ _ taken _ _ s₁ s₂ _ _ htakes htaken hrest hend =>
      obtain ⟨rfl, hready₁⟩ := ready_of_takes htakes hready
      have hmeans' :
          MeansAtom [.node .quantified (operand ++ taken)] (.quantified expr mark.2) := by
        obtain ⟨kind, children, rfl, hmeans⟩ := hmeans
        have htaken := htaken hready.sane
        refine ⟨_, _, rfl, ?_⟩
        rw [meaningsOf_node, ofNode?, meaningsOf_append, hmeans, htaken.meaningsOf_eq, quantify?,
          Tree.firstToken?_append, htaken.firstToken?_eq rfl, if_pos hfound]
        show [some (Regex.quantified expr (quantifierOf mark.1.kind))] = _
        rw [hmarks.1, quantifierOf_tokenKind]
      obtain ⟨hready₂, hmeaning⟩ := ih hrest hready₁ hmarks.2 hmeans'
      exact ⟨hready₂.pass hend, hmeaning⟩

/-! ### Following a derivation

The induction is on the derivation, with a theorem for each production. Each goes through the runs
of the reader: those that turn to another rule than the derivation does contradict the token that
lies ahead. -/

theorem meaningsOf_blanks_append (blanks : List Token) (f : Forest) :
    meaningsOf (blanks.map .leaf ++ f) = meaningsOf f := by
  rw [meaningsOf_append, meaningsOf_leaves, List.nil_append]

/-- One operand keeps its meaning, and several make one node. -/
theorem meaning_joined (kind : SyntaxKind) (wrap : List Regex → Regex)
    (hnode : ∀ children meanings, ofNode? kind children meanings = (operands? meanings).map wrap)
    {first second : Regex} {more : List Regex} {f g : Forest} (blanks : List Token)
    (hf : meaningsOf f = [some first]) (hg : meaningsOf g = (second :: more).map some) :
    meaningsOf (blanks.map .leaf ++ [.node kind (f ++ g)]) =
      [some (joined wrap first (second :: more))] := by
  have hchildren : meaningsOf (f ++ g) = (first :: second :: more).map some := by
    rw [meaningsOf_append, hf, hg]
    rfl
  rw [meaningsOf_blanks_append, meaningsOf_node, hnode, hchildren, operands?_map_some (by simp)]
  rfl

/-- Behind an operand of a choice stands a bar, or what stops the choice. -/
theorem stops_branches {ts : List Token} {exprs : List Regex} (h : DerivesBranches ts exprs)
    (hrest : Stops continuesUnion rest) : Stops continuesConcat (ts ++ rest) := by
  cases h with
  | nil => exact hrest.mono fun k hk => by rw [continuesUnion, hk]; rfl
  | cons hbar => exact stops_cons (by rw [hbar]; rfl)

/-- Behind an operand of a sequence stands an atom, or what stops the sequence. -/
theorem stops_factors {ts : List Token} {exprs : List Regex} (h : DerivesFactors ts exprs)
    (hrest : Stops continuesConcat rest) : Stops quantifiers.contains (ts ++ rest) := by
  cases h with
  | nil => exact hrest.mono fun k hk => by rw [continuesConcat, hk]; rfl
  | cons hoperand hmore =>
    rw [List.append_assoc]
    exact (hoperand.startsAtom.append _).stops_quantifiers

mutual

/-- Where derived tokens lie ahead, exactly these are read, and the trees mean what is derived. -/
theorem means_union : ∀ {ts : List Token} {expr : Regex}, DerivesUnion ts expr →
    ∀ {room : Nat} {s s' : ParseState} {f : Forest} {rest : List Token},
    Reads (union input room (insideOf input room)) s f s' → s.Ready (ts ++ rest) →
    Stops continuesUnion rest → s'.Ready rest ∧ meaningsOf f = [some expr]
  | _, _, .union hfirst hmore => by
    intro h hready hstop
    rw [List.append_assoc] at hready
    have hstop' := stops_branches hmore hstop
    cases unionRun h with
    | one htakes hrun hnext hend =>
      obtain ⟨hready₂, hmeans⟩ := means_concat hfirst hrun (hready.pass htakes) hstop'
      cases hmore with
      | nil => exact ⟨hready₂.pass hend, (meaningsOf_blanks_append _ _).trans hmeans⟩
      | cons hbar =>
        -- a bar lies ahead that the reader did not see
        exact absurd (hready₂.next_eq.trans (congrArg some hbar)) hnext
    | more htakes hrun hnext htakes₃ hrest =>
      obtain ⟨hready₂, hmeans⟩ := means_concat hfirst hrun (hready.pass htakes) hstop'
      obtain ⟨hready₃, hmeans'⟩ := means_branches hmore hrest (hready₂.pass htakes₃) hstop
      cases hmore with
      | nil => exact absurd hnext (Ready.next_ne_pipe hready₂ hstop)
      | cons hbar => exact ⟨hready₃, meaning_joined .alt .alt (fun _ _ => rfl) _ hmeans hmeans'⟩

/-- The operands of a choice behind the first. -/
theorem means_branches : ∀ {ts : List Token} {exprs : List Regex}, DerivesBranches ts exprs →
    ∀ {room : Nat} {s s' : ParseState} {f : Forest} {rest : List Token},
    BranchesRun input room (insideOf input room) s f s' → s.Ready (ts ++ rest) →
    Stops continuesUnion rest → s'.Ready rest ∧ meaningsOf f = exprs.map some
  | _, _, .nil => by
    intro h hready hstop
    cases h with
    | stop _ htakes => exact ⟨hready.pass htakes, rfl⟩
    | more hkind htakes =>
      have hready : Ready _ ([] ++ _) := hready
      exact absurd (htakes.next_eq_some.trans (congrArg some hkind))
        (Ready.next_ne_pipe hready hstop)
  | _, _, .cons hbar hoperand hmore => by
    intro h hready hstop
    rw [List.cons_append, List.append_assoc] at hready
    cases h with
    | stop hnext => exact absurd (hready.next_eq.trans (congrArg some hbar)) hnext
    | more hkind htakes htaken hrun hrest =>
      obtain ⟨rfl, hready₁⟩ := ready_of_takes htakes hready
      obtain ⟨hready₂, hmeans⟩ := means_concat hoperand hrun hready₁ (stops_branches hmore hstop)
      obtain ⟨hready₃, hmeans'⟩ := means_branches hmore hrest hready₂ hstop
      refine ⟨hready₃, ?_⟩
      rw [meaningsOf_append, meaningsOf_append, (htaken hready.sane).meaningsOf_eq, hmeans, hmeans']
      rfl

/-- A sequence ends where no atom begins. -/
theorem means_concat : ∀ {ts : List Token} {expr : Regex}, DerivesConcat ts expr →
    ∀ {room : Nat} {s s' : ParseState} {f : Forest} {rest : List Token},
    Reads (concat input room (insideOf input room)) s f s' → s.Ready (ts ++ rest) →
    Stops continuesConcat rest → s'.Ready rest ∧ meaningsOf f = [some expr]
  | _, _, .concat hfirst hmore => by
    intro h hready hstop
    rw [List.append_assoc] at hready
    have hstop' := stops_factors hmore hstop
    cases concatRun h with
    | missing hnext =>
      -- the first operand is not missing
      rw [Ready.startsAtom hready (hfirst.startsAtom.append _)] at hnext
      cases hnext
    | one htakes hrun hnext hend =>
      obtain ⟨hready₂, hmeans⟩ := means_modified hfirst hrun (hready.pass htakes) hstop'
      cases hmore with
      | nil => exact ⟨hready₂.pass hend, (meaningsOf_blanks_append _ _).trans hmeans⟩
      | cons hoperand hmore =>
        rw [Ready.startsAtom hready₂ ((hoperand.startsAtom.append _).append _)] at hnext
        cases hnext
    | more htakes hrun hnext htakes₃ hrest =>
      obtain ⟨hready₂, hmeans⟩ := means_modified hfirst hrun (hready.pass htakes) hstop'
      obtain ⟨hready₃, hmeans'⟩ := means_factors hmore hrest (hready₂.pass htakes₃) hstop
      cases hmore with
      | nil =>
        rw [Ready.any_eq_false hready₂ hstop.atomFirst] at hnext
        cases hnext
      | cons hoperand hmore =>
        exact ⟨hready₃, meaning_joined .concat .concat (fun _ _ => rfl) _ hmeans hmeans'⟩

/-- The operands of a sequence behind the first. -/
theorem means_factors : ∀ {ts : List Token} {exprs : List Regex}, DerivesFactors ts exprs →
    ∀ {room : Nat} {s s' : ParseState} {f : Forest} {rest : List Token},
    FactorsRun input room (insideOf input room) s f s' → s.Ready (ts ++ rest) →
    Stops continuesConcat rest → s'.Ready rest ∧ meaningsOf f = exprs.map some
  | _, _, .nil => by
    intro h hready hstop
    cases h with
    | stop _ htakes => exact ⟨hready.pass htakes, rfl⟩
    | more hnext =>
      rw [Ready.any_eq_false hready hstop.atomFirst] at hnext
      cases hnext
  | _, _, .cons hoperand hmore => by
    intro h hready hstop
    rw [List.append_assoc] at hready
    cases h with
    | stop hnext =>
      rw [Ready.startsAtom hready (hoperand.startsAtom.append _)] at hnext
      cases hnext
    | more _ htakes hrun hrest =>
      obtain ⟨hready₂, hmeans⟩ :=
        means_modified hoperand hrun (hready.pass htakes) (stops_factors hmore hstop)
      obtain ⟨hready₃, hmeans'⟩ := means_factors hmore hrest hready₂ hstop
      refine ⟨hready₃, ?_⟩
      rw [meaningsOf_append, hmeans, hmeans']
      rfl

/-- An atom is read with all of its quantifiers. -/
theorem means_modified : ∀ {ts : List Token} {expr : Regex}, DerivesModified ts expr →
    ∀ {room : Nat} {s s' : ParseState} {f : Forest} {rest : List Token},
    Reads (modified input room (insideOf input room)) s f s' → s.Ready (ts ++ rest) →
    Stops quantifiers.contains rest → s'.Ready rest ∧ meaningsOf f = [some expr]
  | _, _, .modified hoperand hmarks => by
    intro h hready hstop
    rw [List.append_assoc] at hready
    cases modifiedRun h with
    | run htakes hrun hwhole =>
      obtain ⟨hready₂, hmeans⟩ := means_atomic hoperand hrun (hready.pass htakes)
      obtain ⟨hready₃, _, _, _, hmeans'⟩ :=
        means_quantified (quantifiedRun hwhole) hready₂ hmarks hstop hmeans
      exact ⟨hready₃, (meaningsOf_blanks_append _ _).trans hmeans'⟩

/-- The first token of an atom tells which of the four it is. -/
theorem means_atomic : ∀ {ts : List Token} {expr : Regex}, DerivesAtomic ts expr →
    ∀ {room : Nat} {s s' : ParseState} {f : Forest} {rest : List Token},
    Reads (atomic input (insideOf input room)) s f s' → s.Ready (ts ++ rest) →
    s'.Ready rest ∧ MeansAtom f expr
  | _, _, .group hopening hinside hclosing => by
    intro h hready
    rw [List.cons_append, List.append_assoc] at hready
    obtain ⟨s₁, htakes, hrun⟩ := atomicRun h
    rw [hready.next_eq, hopening] at hrun
    cases hrun with
    | group h =>
      obtain ⟨reader, hreader, hrun⟩ := groupRun h
      refine means_group hrun (hready.pass htakes) hinside.startsAtom hclosing ?_
      -- what is inside the group is derived, and is read with less room
      intro s f s' hread hready
      obtain ⟨room, rfl⟩ := exists_of_insideOf hreader
      rw [regex_eq] at hread
      exact means_union hinside hread hready (stops_cons (by rw [hclosing]; rfl))
    | anchor hkind => cases hkind
    | missing hnext => cases hnext
  | _, _, .ident hname => by
    intro h hready
    rw [List.singleton_append] at hready
    obtain ⟨s₁, htakes, hrun⟩ := atomicRun h
    rw [hready.next_eq, hname] at hrun
    cases hrun with
    | ident h => exact means_ident h (hready.pass htakes) hname
    | anchor hkind => cases hkind
    | missing hnext => cases hnext
  | _, _, .reference hopening hname hclosing => by
    intro h hready
    obtain ⟨s₁, htakes, hrun⟩ := atomicRun h
    rw [List.cons_append] at hready
    rw [hready.next_eq, hopening] at hrun
    cases hrun with
    | reference h =>
      exact means_reference (referenceRun h) (hready.pass htakes) hopening hname hclosing
    | anchor hkind => cases hkind
    | missing hnext => cases hnext
  | _, _, .anchor (a := a) hmark => by
    intro h hready
    rw [List.singleton_append] at hready
    obtain ⟨s₁, htakes, hrun⟩ := atomicRun h
    rw [hready.next_eq, hmark] at hrun
    have hfound : (some a.tokenKind).any atomFirst.contains = true := by cases a <;> rfl
    -- the three anchors are treated alike, so the kind of the token is not looked into
    generalize hkind : some a.tokenKind = kind at hrun
    cases hrun with
    | anchor _ h => exact means_anchor h (hready.pass htakes) hmark
    | missing hnext =>
      rw [← hkind, hfound] at hnext
      cases hnext
    | group | reference | ident => cases a <;> cases hkind

end

/-- A text that is derived from a regex is read into its meaning. -/
theorem means_root {limit : Nat} {tree : Tree} {expr : Regex}
    (h : Reads (root input limit) s tree s')
    (hready : s.Ready ts) (hderives : DerivesUnion ts expr) :
    s'.reports = [] ∧ ofRoot? tree = some expr := by
  have hread {s₁ s₂ : ParseState} {first : Forest} (htakes : s.Takes [] s₁)
      (hfirst : Reads (regex input limit) s₁ first s₂) :
      s₂.Ready [] ∧ meaningsOf first = [some expr] := by
    rw [regex_eq] at hfirst
    have hready₁ := hready.pass htakes
    rw [← List.append_nil ts] at hready₁
    exact means_union hderives hfirst hready₁ (fun token htoken => nomatch htoken)
  cases rootRun h with
  | empty hwords =>
    obtain ⟨token, rest, rfl, -⟩ := hderives.startsAtom
    rw [hready.words_eq] at hwords
    cases hwords
  | read htakes hfirst _ hend =>
    obtain ⟨hready₂, hmeans⟩ := hread htakes hfirst
    refine ⟨(hready₂.pass hend).reports_eq, ?_⟩
    rw [ofRoot?, meaningsOf_append, hmeans, meaningsOf_leaves]
    rfl
  | rest htakes hfirst hwords =>
    -- nothing is left behind what is derived
    exact absurd (hread htakes hfirst).1.words_eq hwords

end Parser

/-! ### Texts -/

theorem ready_ofTokens (ts : List Token) : (ParseState.ofTokens ts).Ready (visible ts) := by
  obtain ⟨hwords, hfirst, hblanks⟩ := splitWords_spec ts
  exact ⟨⟨hfirst, hblanks, fun _ => rfl⟩, rfl, hwords⟩

/-- The reader reports nothing about a text exactly when its tokens without blanks are derived from
a regex. Then the tree means what is derived, which has a written form and whose names carry the
places where the text spells them. -/
theorem parse_grammar {text : String} {source : SourceId} {limit : Nat} {p : Parsed}
    (h : parse text source limit = .ok p) :
    (p.diagnostics = [] ↔ ∃ expr, DerivesUnion (visible (tokens text)) expr) ∧
      ∀ expr, DerivesUnion (visible (tokens text)) expr →
        Regex.ofRoot? p.root = some expr ∧ expr.Written ∧
          ∀ name ∈ expr.names, SpelledAt text name.text name.span := by
  unfold parse at h
  split at h
  next tree s hread =>
    cases h
    have hready := ready_ofTokens (tokens text)
    refine ⟨⟨fun hclean => ?_, fun ⟨expr, hderives⟩ => ?_⟩, fun expr hderives => ⟨?_, ?_, ?_⟩⟩
    · rw [← hready.words_eq]
      exact Parser.derived_root hread hready.sane hclean
    · exact (Parser.means_root hread hready hderives).1
    · exact (Parser.means_root hread hready hderives).2
    · exact hderives.written
    · intro name hname
      obtain ⟨token, htoken, rfl⟩ := hderives.spelledIn name hname
      exact spells_of_mem_tokens (List.mem_filter.1 htoken).1
  next => cases h

theorem parse_grammar_group : ∃ p, parse "(a|<b>)* c" ⟨0⟩ 128 = .ok p ∧ p.diagnostics = [] ∧
    ∃ expr, DerivesUnion (visible (tokens "(a|<b>)* c")) expr ∧ Regex.ofRoot? p.root = some expr ∧
      ∀ name ∈ expr.names, SpelledAt "(a|<b>)* c" name.text name.span := by
  have hclean : (parse "(a|<b>)* c" ⟨0⟩ 128).toOption.map (·.diagnostics) = some [] := by
    decide +kernel
  cases hparse : parse "(a|<b>)* c" ⟨0⟩ 128 with
  | error halt =>
    rw [hparse] at hclean
    cases hclean
  | ok p =>
    rw [hparse] at hclean
    have hnone : p.diagnostics = [] := Option.some.inj hclean
    obtain ⟨hiff, hmeans⟩ := parse_grammar hparse
    obtain ⟨expr, hderives⟩ := hiff.1 hnone
    obtain ⟨hroot, -, hspelled⟩ := hmeans expr hderives
    exact ⟨p, rfl, hnone, expr, hderives, hroot, hspelled⟩

end CallChain
