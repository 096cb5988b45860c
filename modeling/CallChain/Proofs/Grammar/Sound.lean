import CallChain.Proofs.Grammar.Derivation
import CallChain.Proofs.Grammar.Productions

/-!
# A text without reports is derived

Each production takes some tokens. If nothing was reported when it ends, then these tokens are
derived from the production; a run that ends without reports has had none on the way.

* `derived_regex`: what a regex takes.
* `derived_root`: what the whole text is.
-/

namespace CallChain

/-! ### Kinds of tokens -/

theorem exists_quantifier {k : SyntaxKind} (h : KindSet.quantifiers.contains k = true) :
    ∃ q : Quantifier, k = q.tokenKind := by
  cases k <;> try cases h
  · exact ⟨.star, rfl⟩
  · exact ⟨.plus, rfl⟩
  · exact ⟨.optional, rfl⟩

theorem exists_anchor {k : SyntaxKind} (h : KindSet.anchors.contains k = true) :
    ∃ a : Anchor, k = a.tokenKind := by
  cases k <;> try cases h
  · exact ⟨.start, rfl⟩
  · exact ⟨.inner, rfl⟩
  · exact ⟨.stop, rfl⟩

namespace Parser

open ParseState

variable {α : Type} {D : List Token → α → Prop} {s s' s'' : ParseState} {f operand : Forest}
  {input : Input} {ts : List Token} {kind : SyntaxKind}

/-- A run has taken some tokens, which are derived if nothing has been reported. -/
def Derived (D : List Token → α → Prop) (s s' : ParseState) : Prop :=
  ∃ ts, s.Moves ts s' ∧ (s.Sane → s'.reports = [] → ∃ a, D ts a)

theorem Derived.after (hmoves : s.Moves [] s') (h : Derived D s' s'') : Derived D s s'' := by
  obtain ⟨ts, hmoves', hderives⟩ := h
  exact ⟨ts, hmoves.after hmoves', fun hsane => hderives (hmoves.sane hsane)⟩

theorem Moves.kind_eq {token : Token} (h : s.Moves (token :: ts) s')
    (hnext : s.next = some kind) : token.kind = kind :=
  Option.some.inj (h.next_eq_some.symm.trans hnext)

/-! ### Atoms -/

theorem derived_reference (h : ReferenceRun s f s') (hnext : s.next = some .angleOpen) :
    Derived DerivesAtomic s s' := by
  cases h with
  | @run token bracket name closing s₁ s₂ s₃ s₄ _ hopening _ hname hmissing hclosing hunclosed =>
    rcases reads_eat? hname with ⟨_, nameToken, rfl, hid, htakes₂, -⟩ | ⟨rfl, -, htakes₂⟩
    · have hfront := hopening.toMoves.trans (htakes₂.toMoves.trans hmissing.moves)
      rcases reads_eat? hclosing with ⟨_, close, rfl, hclose, htakes₄, -⟩ | ⟨rfl, -, htakes₄⟩
      · have hback := htakes₄.toMoves.trans hunclosed.moves
        have hkind := Moves.kind_eq hopening.toMoves hnext
        exact ⟨[token, nameToken, close], hfront.trans hback, fun _ _ =>
          ⟨_, .reference hkind hid hclose⟩⟩
      · have hmoves := hfront.trans htakes₄.toMoves
        refine ⟨_, hmoves.trans hunclosed.moves, fun hsane hclean => ?_⟩
        exact absurd hclean (hunclosed.dirty rfl (hmoves.sane hsane))
    · have hmoves := hopening.toMoves.trans htakes₂.toMoves
      obtain ⟨rest, htakes₄⟩ := exists_takes_of_eat? hclosing
      have hback := htakes₄.toMoves.trans hunclosed.moves
      refine ⟨_, hmoves.trans (hmissing.moves.after hback), fun hsane hclean => ?_⟩
      exact absurd (hback.clean hclean) (hmissing.dirty rfl (hmoves.sane hsane))

/-- What the inside of groups takes is derived from a regex. -/
def InsideDerived (inside : Option (Parser Forest)) : Prop :=
  ∀ reader, inside = some reader → ∀ s f s', Reads reader s f s' → Derived DerivesUnion s s'

/-- The body of a group is derived, unless the text has come to its end. -/
theorem derived_groupBody {reader : Parser Forest} {body : Forest}
    (hreader : ∀ s f s', Reads reader s f s' → Derived DerivesUnion s s')
    (h : GroupBody reader s body s') : ∃ ts, s.Moves ts s' ∧
      (s.Sane → s'.reports = [] → s.words = [] ∨ ∃ expr, DerivesUnion ts expr) := by
  cases h with
  | empty _ hmoves hdirty =>
    exact ⟨[], hmoves, fun hsane hclean => absurd hclean (hdirty hsane)⟩
  | ended hwords htakes => exact ⟨[], htakes.toMoves, fun _ _ => .inl hwords⟩
  | read htakes hbody =>
    obtain ⟨ts, hmoves, hderives⟩ := Derived.after htakes.toMoves (hreader _ _ _ hbody)
    exact ⟨ts, hmoves, fun hsane hclean => .inr (hderives hsane hclean)⟩

theorem derived_group {reader : Parser Forest}
    (hreader : ∀ s f s', Reads reader s f s' → Derived DerivesUnion s s')
    (h : GroupRun reader s f s') (hnext : s.next = some .parenOpen) :
    Derived DerivesAtomic s s' := by
  cases h with
  | @run token bracket body closing s₁ s₂ s₃ s₄ _ hopening _ hbody hclosing hunclosed hend =>
    obtain ⟨ts, hmoves₂, hderives⟩ := derived_groupBody hreader hbody
    have hfront := hopening.toMoves.trans hmoves₂
    have hback := hunclosed.moves.after hend.toMoves
    rcases reads_eat? hclosing with ⟨_, close, rfl, hclose, htakes₃, -⟩ | ⟨rfl, -, htakes₃⟩
    · have hlast := htakes₃.toMoves.trans hback
      refine ⟨token :: (ts ++ [close]), hfront.trans hlast, fun hsane hclean => ?_⟩
      rcases hderives (hopening.sane hsane) (hlast.clean hclean) with hempty | ⟨expr, hexpr⟩
      · -- At the end of the text there is no closing parenthesis.
        rw [hmoves₂.words_eq, hlast.words_eq] at hempty
        exact absurd hempty (by simp)
      · exact ⟨expr, .group (Moves.kind_eq hopening.toMoves hnext) hexpr hclose⟩
    · have hmoves := hfront.trans htakes₃.toMoves
      refine ⟨_, hmoves.trans hback, fun hsane hclean => ?_⟩
      exact absurd (hend.toMoves.clean hclean) (hunclosed.dirty rfl (hmoves.sane hsane))

theorem derived_leaf {node : SyntaxKind} (h : Reads (leaf node) s f s')
    (hnext : s.next = some kind)
    (hderives : ∀ token : Token, token.kind = kind → ∃ expr, DerivesAtomic [token] expr) :
    Derived DerivesAtomic s s' := by
  obtain ⟨token, taken, htakes, -, -⟩ := reads_leaf h
  exact ⟨[token], htakes.toMoves, fun _ _ => hderives token (Moves.kind_eq htakes.toMoves hnext)⟩

theorem derived_atomic {inside : Option (Parser Forest)} (hinside : InsideDerived inside)
    (h : Reads (atomic input inside) s f s') : Derived DerivesAtomic s s' := by
  obtain ⟨s₁, htakes, hrun⟩ := atomicRun h
  refine Derived.after htakes.toMoves ?_
  rw [← htakes.toMoves.next_eq] at hrun
  generalize hnext : s₁.next = next at hrun
  cases hrun with
  | group h =>
    obtain ⟨reader, hreader, hrun⟩ := groupRun h
    exact derived_group (hinside reader hreader) hrun hnext
  | reference h => exact derived_reference (referenceRun h) hnext
  | ident h => exact derived_leaf h hnext fun token hkind => ⟨_, .ident hkind⟩
  | anchor hkind h =>
    obtain ⟨a, rfl⟩ := exists_anchor hkind
    exact derived_leaf h hnext fun token hkind => ⟨_, .anchor hkind⟩
  | missing _ hmoves hdirty =>
    exact ⟨[], hmoves, fun hsane hclean => absurd hclean (hdirty hsane)⟩

/-! ### Operands -/

/-- The quantifiers behind an operand are taken. -/
theorem moves_of_quantified (h : QuantifiedRun operand s f s') :
    ∃ marks : List (Token × Quantifier), s.Moves (marks.map (·.1)) s' ∧
      ∀ mark ∈ marks, mark.1.kind = mark.2.tokenKind := by
  induction h with
  | stop hnext htakes => exact ⟨[], htakes.toMoves, by simp⟩
  | @wrap token _ _ _ s s₁ s₂ s' hnext htakes _ _ hend ih =>
    obtain ⟨marks, hmoves, hmarks⟩ := ih
    have hmoves' : s.Moves ([token] ++ (marks.map (·.1) ++ [])) s' :=
      htakes.toMoves.trans (hmoves.trans hend.toMoves)
    rw [List.append_nil] at hmoves'
    obtain ⟨kind, hnext, hkind⟩ := exists_next_of_any hnext
    obtain ⟨q, rfl⟩ := exists_quantifier hkind
    refine ⟨(token, q) :: marks, hmoves', ?_⟩
    rw [List.forall_mem_cons]
    exact ⟨Moves.kind_eq hmoves' hnext, hmarks⟩

section Productions

variable {room : Nat} {inside : Option (Parser Forest)} (hinside : InsideDerived inside)

include hinside

theorem derived_modified (h : Reads (modified input room inside) s f s') :
    Derived DerivesModified s s' := by
  cases modifiedRun h with
  | run htakes hoperand hwhole =>
    obtain ⟨ts, hmoves, hderives⟩ := derived_atomic hinside hoperand
    obtain ⟨marks, hmoves', hmarks⟩ := moves_of_quantified (quantifiedRun hwhole)
    refine Derived.after htakes.toMoves ⟨_, hmoves.trans hmoves', fun hsane hclean => ?_⟩
    obtain ⟨expr, hexpr⟩ := hderives hsane (hmoves'.clean hclean)
    exact ⟨_, .modified hexpr hmarks⟩

theorem derived_factors (h : FactorsRun input room inside s f s') :
    Derived DerivesFactors s s' := by
  induction h with
  | stop _ htakes => exact ⟨[], htakes.toMoves, fun _ _ => ⟨[], .nil⟩⟩
  | more _ htakes hoperand _ ih =>
    obtain ⟨ts, hmoves, hderives⟩ := derived_modified hinside hoperand
    obtain ⟨ts', hmoves', hderives'⟩ := ih
    refine Derived.after htakes.toMoves ⟨_, hmoves.trans hmoves', fun hsane hclean => ?_⟩
    obtain ⟨expr, hexpr⟩ := hderives hsane (hmoves'.clean hclean)
    obtain ⟨exprs, hexprs⟩ := hderives' (hmoves.sane hsane) hclean
    exact ⟨_, .cons hexpr hexprs⟩

theorem derived_concat (h : Reads (concat input room inside) s f s') :
    Derived DerivesConcat s s' := by
  have hcompose {s₂ s₃ : ParseState} {first : Forest}
      (hfirst : Reads (modified input room inside) s₂ first s₃)
      (hrest : Derived DerivesFactors s₃ s') : Derived DerivesConcat s₂ s' := by
    obtain ⟨ts, hmoves, hderives⟩ := derived_modified hinside hfirst
    obtain ⟨ts', hmoves', hderives'⟩ := hrest
    refine ⟨_, hmoves.trans hmoves', fun hsane hclean => ?_⟩
    obtain ⟨expr, hexpr⟩ := hderives hsane (hmoves'.clean hclean)
    obtain ⟨exprs, hexprs⟩ := hderives' (hmoves.sane hsane) hclean
    exact ⟨_, .concat hexpr hexprs⟩
  cases concatRun h with
  | missing _ hmoves hdirty =>
    exact ⟨[], hmoves, fun hsane hclean => absurd hclean (hdirty hsane)⟩
  | one htakes hfirst _ hend =>
    refine Derived.after htakes.toMoves (hcompose hfirst ?_)
    exact ⟨[], hend.toMoves, fun _ _ => ⟨[], .nil⟩⟩
  | more htakes hfirst _ htakes₃ hrest =>
    refine Derived.after htakes.toMoves (hcompose hfirst ?_)
    exact Derived.after htakes₃.toMoves (derived_factors hinside hrest)

theorem derived_branches (h : BranchesRun input room inside s f s') :
    Derived DerivesBranches s s' := by
  induction h with
  | stop _ htakes => exact ⟨[], htakes.toMoves, fun _ _ => ⟨[], .nil⟩⟩
  | @more token _ _ _ _ _ _ _ hkind htakes _ hoperand _ ih =>
    obtain ⟨ts, hmoves, hderives⟩ := derived_concat hinside hoperand
    obtain ⟨ts', hmoves', hderives'⟩ := ih
    refine ⟨token :: (ts ++ ts'), htakes.toMoves.trans (hmoves.trans hmoves'), ?_⟩
    intro hsane hclean
    have hsane₁ := htakes.sane hsane
    obtain ⟨expr, hexpr⟩ := hderives hsane₁ (hmoves'.clean hclean)
    obtain ⟨exprs, hexprs⟩ := hderives' (hmoves.sane hsane₁) hclean
    exact ⟨_, .cons hkind hexpr hexprs⟩

theorem derived_union (h : Reads (union input room inside) s f s') :
    Derived DerivesUnion s s' := by
  have hcompose {s₂ s₃ : ParseState} {first : Forest}
      (hfirst : Reads (concat input room inside) s₂ first s₃)
      (hrest : Derived DerivesBranches s₃ s') : Derived DerivesUnion s₂ s' := by
    obtain ⟨ts, hmoves, hderives⟩ := derived_concat hinside hfirst
    obtain ⟨ts', hmoves', hderives'⟩ := hrest
    refine ⟨_, hmoves.trans hmoves', fun hsane hclean => ?_⟩
    obtain ⟨expr, hexpr⟩ := hderives hsane (hmoves'.clean hclean)
    obtain ⟨exprs, hexprs⟩ := hderives' (hmoves.sane hsane) hclean
    exact ⟨_, .union hexpr hexprs⟩
  cases unionRun h with
  | one htakes hfirst _ hend =>
    refine Derived.after htakes.toMoves (hcompose hfirst ?_)
    exact ⟨[], hend.toMoves, fun _ _ => ⟨[], .nil⟩⟩
  | more htakes hfirst _ htakes₃ hrest =>
    refine Derived.after htakes.toMoves (hcompose hfirst ?_)
    exact Derived.after htakes₃.toMoves (derived_branches hinside hrest)

end Productions

/-- What a regex takes is derived if nothing is reported. -/
theorem derived_regex (room : Nat) (h : Reads (regex input room) s f s') :
    Derived DerivesUnion s s' := by
  induction room generalizing s f s' with
  | zero => exact derived_union (fun reader hnone => by cases hnone) h
  | succ room ih =>
    have hinside : InsideDerived (some (regex input room)) := by
      rintro reader ⟨⟩ s f s' h
      exact ih h
    exact derived_union hinside h

/-! ### The whole text -/

theorem reads_setAside (h : Reads (setAside input) s f s') :
    ∃ ts, s.Moves ts s' ∧ (s.Sane → s'.reports ≠ []) := by
  cases setAsideSteps h with
  | ended hreport hended =>
    obtain ⟨hmoves, hdirty⟩ := reads_report hreport
    have htakes := (reads_atEnd hended).2
    exact ⟨[], hmoves.after htakes.toMoves, fun hsane hclean =>
      hdirty hsane (htakes.toMoves.clean hclean)⟩
  | word hreport hended hflush hbump =>
    obtain ⟨hmoves, hdirty⟩ := reads_report hreport
    obtain ⟨token, htakes, -⟩ := reads_bump hbump
    have hword := (reads_atEnd hended).2.after ((reads_flush hflush).2.after htakes)
    exact ⟨[token], hmoves.after hword.toMoves, fun hsane hclean =>
      hdirty hsane (hword.toMoves.clean hclean)⟩

theorem moves_of_more {room : Nat} (h : MoreSteps input room s f s') : ∃ ts, s.Moves ts s' := by
  cases h with
  | none hnext => exact ⟨[], (reads_nextIn hnext).2.toMoves⟩
  | regex hnext hmore =>
    obtain ⟨ts, hmoves, -⟩ := derived_regex room hmore
    exact ⟨ts, (reads_nextIn hnext).2.toMoves.after hmoves⟩

/-- What stands behind the first regex is set aside. -/
theorem reads_leftovers {room : Nat} (h : LeftoversSteps input room s f s') :
    s.words = [] ∧ s.Takes [] s' ∧ f = [] ∨
      s.words ≠ [] ∧ ∃ ts, s.Moves ts s' ∧ (s.Sane → s'.reports ≠ []) := by
  induction h with
  | stop hended =>
    obtain ⟨hnone, htakes⟩ := reads_atEnd hended
    exact .inl ⟨List.isEmpty_iff.1 hnone.symm, htakes, rfl⟩
  | @round _ _ _ _ _ _ s₃ s' hended hmisplaced hmore _ ih =>
    obtain ⟨hsome, htakes⟩ := reads_atEnd hended
    obtain ⟨ts, hmoves, hdirty⟩ := reads_setAside hmisplaced
    obtain ⟨ts', hmoves'⟩ := moves_of_more hmore
    have hrest : ∃ ts, s₃.Moves ts s' := by
      rcases ih with ⟨-, htakes, -⟩ | ⟨-, ts, hmoves, -⟩
      · exact ⟨[], htakes.toMoves⟩
      · exact ⟨ts, hmoves⟩
    obtain ⟨ts'', hmoves''⟩ := hrest
    have hlast := hmoves'.trans hmoves''
    refine .inr ⟨fun hnil => ?_, _, htakes.toMoves.after (hmoves.trans hlast),
      fun hsane hclean => hdirty (htakes.sane hsane) (hlast.clean hclean)⟩
    rw [hnil] at hsome
    cases hsome

/-- How a whole text is read. -/
inductive RootRun (input : Input) (limit : Nat) (s : ParseState) : Tree → ParseState → Prop where
  | empty {tree : Tree} {s' : ParseState} (hwords : s.words = [])
      (hdirty : s.Sane → s'.reports ≠ []) : RootRun input limit s tree s'
  | read {first : Forest} {blanks : List Token} {s₁ s₂ s' : ParseState} (htakes : s.Takes [] s₁)
      (hfirst : Reads (regex input limit) s₁ first s₂) (hwords : s₂.words = [])
      (hend : s₂.Takes [] s') :
      RootRun input limit s (.node .root (first ++ blanks.map .leaf)) s'
  | rest {ts : List Token} {tree : Tree} {first : Forest} {s₁ s₂ s' : ParseState}
      (htakes : s.Takes [] s₁) (hfirst : Reads (regex input limit) s₁ first s₂)
      (hwords : s₂.words ≠ []) (hmoves : s₂.Moves ts s') (hdirty : s₂.Sane → s'.reports ≠ []) :
      RootRun input limit s tree s'

theorem rootRun {limit : Nat} {tree : Tree} (h : Reads (root input limit) s tree s') :
    RootRun input limit s tree s' := by
  cases rootSteps h with
  | empty hended hreport hflush =>
    obtain ⟨hnone, htakes⟩ := reads_atEnd hended
    obtain ⟨-, hdirty⟩ := reads_report hreport
    refine .empty (List.isEmpty_iff.1 hnone.symm) fun hsane hclean => ?_
    exact hdirty (htakes.sane hsane) ((reads_flush hflush).2.toMoves.clean hclean)
  | read hended hfirst hrest hflush =>
    have htakes₁ := (reads_atEnd hended).2
    obtain ⟨rfl, htakes⟩ := reads_flush hflush
    rcases reads_leftovers hrest with ⟨hwords, htakes', rfl⟩ | ⟨hwords, ts, hmoves, hdirty⟩
    · rw [List.append_nil]
      exact .read htakes₁ hfirst hwords (htakes'.after htakes)
    · exact .rest htakes₁ hfirst hwords (hmoves.trans htakes.toMoves) fun hsane hclean =>
        hdirty hsane (htakes.toMoves.clean hclean)

/-- A text about which nothing is reported is derived from a regex. -/
theorem derived_root {limit : Nat} {tree : Tree} (h : Reads (root input limit) s tree s')
    (hsane : s.Sane) (hclean : s'.reports = []) : ∃ expr, DerivesUnion s.words expr := by
  cases rootRun h with
  | empty _ hdirty => exact absurd hclean (hdirty hsane)
  | read htakes hfirst hwords hend =>
    obtain ⟨ts, hmoves, hderives⟩ := derived_regex limit hfirst
    obtain ⟨expr, hexpr⟩ := hderives (htakes.sane hsane) (hend.toMoves.clean hclean)
    rw [htakes.words_eq, hmoves.words_eq, hwords, List.nil_append, List.append_nil]
    exact ⟨expr, hexpr⟩
  | rest htakes hfirst _ hmoves hdirty =>
    obtain ⟨ts, hmoves₂, -⟩ := derived_regex limit hfirst
    exact absurd hclean (hdirty (hmoves₂.sane (htakes.sane hsane)))

end Parser

end CallChain
