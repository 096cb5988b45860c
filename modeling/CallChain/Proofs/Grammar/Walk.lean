import CallChain.Proofs.Grammar.Steps

/-!
# Walks through the productions

A property of the reader that relates the trees a step answers to the states around it holds of
whole texts if the steps respect it and it goes along with putting steps one after the other. `Walk`
lists what has to be respected: the single steps, the nodes, and the three productions with reports
or brackets of their own. All other productions follow.

The tokens that a step takes stand bare until a node is made around them. So there are two
relations: `inner` for what is within a node that is being read, and `outer` for what may stand
beside it.

* `Walk.regex`, `Walk.leftovers`, `Walk.root`: the productions.
-/

namespace CallChain

/-- The states differ in the looks that are left at most. -/
def ParseState.Idle (s s' : ParseState) : Prop := s' = { s with looks := s'.looks }

theorem ParseState.Idle.words_eq {s s' : ParseState} (h : s.Idle s') : s'.words = s.words := by
  rw [h]
  rfl

theorem ParseState.Idle.trans {s s' s'' : ParseState} (h : s.Idle s') (h' : s'.Idle s'') :
    s.Idle s'' :=
  Eq.trans h' (by rw [h])

theorem ParseState.Idle.next_eq {s s' : ParseState} (h : s.Idle s') : s'.next = s.next := by
  rw [next, h.words_eq]
  rfl

namespace Parser

open ParseState

variable {s s' : ParseState} {f operand : Forest} {input : Input} {room : Nat}
  {inside : Option (Parser Forest)}

/-! ### Idle steps -/

theorem idle_look {k : Option SyntaxKind} (h : Reads look s k s') : s.Idle s' := by
  unfold Reads look at h
  split at h
  · cases h
    rfl
  · split at h
    · cases h
    · cases h
      rfl

theorem idle_nextIs {kind : SyntaxKind} {b : Bool} (h : Reads (nextIs kind) s b s') :
    s.Idle s' := by
  obtain ⟨k, s₁, hlook, h⟩ := reads_bind.1 h
  obtain ⟨-, rfl⟩ := reads_pure.1 h
  exact idle_look hlook

theorem idle_nextIn {kinds : KindSet} {b : Bool} (h : Reads (nextIn kinds) s b s') :
    s.Idle s' := by
  obtain ⟨k, s₁, hlook, h⟩ := reads_bind.1 h
  obtain ⟨-, rfl⟩ := reads_pure.1 h
  exact idle_look hlook

theorem idle_atEnd {b : Bool} (h : Reads atEnd s b s') : s.Idle s' := by
  obtain ⟨t, s₁, hget, h⟩ := reads_bind.1 h
  obtain ⟨-, rfl⟩ := reads_get.1 hget
  obtain ⟨-, rfl⟩ := reads_pure.1 h
  rfl

theorem idle_refill {u : Unit} (h : Reads refill s u s') : s.Idle s' := by
  cases h
  rfl

/-- The span of the next word, or of the end of the text. -/
theorem reads_nextSpan_eq {span : Span} (h : Reads (nextSpan input) s span s') :
    span = (s.words.head?.map (·.span)).getD (.emptyAt input.stop) ∧ s' = s := by
  obtain ⟨t, s₁, hget, h⟩ := reads_bind.1 h
  obtain ⟨rfl, rfl⟩ := reads_get.1 hget
  obtain ⟨rfl, rfl⟩ := reads_pure.1 h
  refine ⟨?_, rfl⟩
  rw [words, List.head?_map, Option.map_map]
  rfl

/-! ### Quantifiers -/

/-- One level of room is spent on a quantifier before it is taken. -/
theorem quantified_eq (room : Nat) (operand : Forest) : quantified room operand = (do
    if ← nextIn .quantifiers then
      match room with
      | 0 => throw .nestingLimit
      | room + 1 =>
        refill
        let quantifier ← bump
        let whole ← quantified room [.node .quantified (operand ++ quantifier)]
        refill
        return whole
    else
      return operand) := by
  cases room <;> rfl

/-! ### Walks -/

/-- Two relations that the steps of the reader respect. -/
structure Walk (input : Input) (outer inner : ParseState → Forest → ParseState → Prop) : Prop where
  idle {s s' : ParseState} : s.Idle s' → outer s [] s'
  report {kind : DiagnosticKind} {s s' : ParseState} {u : Unit} :
    Reads (report input kind []) s u s' → outer s [] s'
  flush {s : ParseState} {f : Forest} {s' : ParseState} : Reads flush s f s' → outer s f s'
  append {s s' s'' : ParseState} {f g : Forest} :
    outer s f s' → outer s' g s'' → outer s (f ++ g) s''
  inner_of {s : ParseState} {f : Forest} {s' : ParseState} : outer s f s' → inner s f s'
  bump {s : ParseState} {f : Forest} {s' : ParseState} : Reads bump s f s' → inner s f s'
  append_inner {s s' s'' : ParseState} {f g : Forest} :
    inner s f s' → inner s' g s'' → inner s (f ++ g) s''
  node {kind : SyntaxKind} {s : ParseState} {f : Forest} {s' : ParseState} :
    kind ≠ .error → inner s f s' → outer s [.node kind f] s'
  reference {s : ParseState} {f : Forest} {s' : ParseState} :
    s.next = some .angleOpen → Reads (reference input) s f s' → outer s f s'
  group {inside : Option (Parser Forest)} {s : ParseState} {f : Forest} {s' : ParseState} :
    (∀ reader ∈ inside, ∀ {s f s'}, Reads reader s f s' → outer s f s') →
      s.next = some .parenOpen → Reads (group input inside) s f s' → outer s f s'
  setAside {s : ParseState} {f : Forest} {s' : ParseState} :
    Reads (setAside input) s f s' → inner s f s'

namespace Walk

variable {outer inner : ParseState → Forest → ParseState → Prop} (w : Walk input outer inner)

include w

/-- An idle step before others. -/
theorem after {s₁ : ParseState} (hidle : s.Idle s₁) (h : outer s₁ f s') : outer s f s' :=
  w.append (w.idle hidle) h

theorem after_inner {s₁ : ParseState} (hidle : s.Idle s₁) (h : inner s₁ f s') : inner s f s' :=
  w.append_inner (w.inner_of (w.idle hidle)) h

/-- An idle step behind others. -/
theorem before {s₁ : ParseState} (h : outer s f s₁) (hidle : s₁.Idle s') : outer s f s' := by
  have hboth := w.append h (w.idle hidle)
  rwa [List.append_nil] at hboth

theorem eat? {kind : SyntaxKind} {o : Option Forest} (h : Reads (eat? kind) s o s') :
    inner s (o.getD []) s' := by
  cases eatSteps h with
  | eaten hnext hbump => exact w.after_inner (idle_nextIs hnext) (w.bump hbump)
  | left hnext => exact w.inner_of (w.idle (idle_nextIs hnext))

theorem leaf {kind : SyntaxKind} (hkind : kind ≠ .error) (h : Reads (leaf kind) s f s') :
    outer s f s' := by
  obtain ⟨taken, hbump, rfl⟩ := exists_bump_of_leaf h
  exact w.node hkind (w.bump hbump)

/-- The quantifiers behind an operand, each in a node around what stands before it. -/
theorem quantified {s₀ : ParseState} (hoperand : outer s₀ operand s)
    (h : QuantifiedSteps operand s f s') : outer s₀ f s' := by
  induction h with
  | stop hnext => exact w.before hoperand (idle_nextIn hnext)
  | wrap hnext hrefill hquantifier _ hrefill' ih =>
    have hidle := (idle_nextIn hnext).trans (idle_refill hrefill)
    have hboth := w.append_inner (w.inner_of (w.before hoperand hidle)) (w.bump hquantifier)
    exact w.before (ih (w.node (by decide) hboth)) (idle_refill hrefill')

section Inside

variable (hinside : ∀ reader ∈ inside, ∀ {s f s'}, Reads reader s f s' → outer s f s')

include hinside

theorem atomic (h : Reads (atomic input inside) s f s') : outer s f s' := by
  obtain ⟨s₁, hlook, hsteps⟩ := atomicSteps h
  refine w.after (idle_look hlook) ?_
  rw [← (idle_look hlook).next_eq] at hsteps
  generalize hnext : s₁.next = next at hsteps
  cases hsteps with
  | group h => exact w.group hinside hnext h
  | reference h => exact w.reference hnext h
  | ident h => exact w.leaf (by decide) h
  | anchor _ h => exact w.leaf (by decide) h
  | missing hnone _ hreport => exact hnone ▸ w.report hreport

theorem modified (h : Reads (modified input room inside) s f s') : outer s f s' := by
  cases modifiedSteps h with
  | steps hflush hoperand hwhole =>
    have hwhole := w.quantified (w.atomic hinside hoperand) (quantifiedSteps hwhole)
    exact w.append (w.flush hflush) hwhole

theorem factors (h : FactorsSteps input room inside s f s') : outer s f s' := by
  induction h with
  | stop hnext => exact w.idle (idle_nextIn hnext)
  | more hnext hoperand _ ih =>
    exact w.after (idle_nextIn hnext) (w.append (w.modified hinside hoperand) ih)

theorem concat (h : Reads (concat input room inside) s f s') : outer s f s' := by
  cases concatSteps h with
  | missing hnext hreport => exact w.after (idle_nextIn hnext) (w.report hreport)
  | one hnext hflush hfirst hend =>
    have hfirst := w.before (w.modified hinside hfirst) (idle_nextIn hend)
    exact w.after (idle_nextIn hnext) (w.append (w.flush hflush) hfirst)
  | more hnext hflush hfirst hmore hrest =>
    have hfirst := w.before (w.modified hinside hfirst) (idle_nextIn hmore)
    have hboth := w.inner_of (w.append hfirst (w.factors hinside hrest))
    exact w.after (idle_nextIn hnext) (w.append (w.flush hflush) (w.node (by decide) hboth))

/-- The bars stand bare until the node of the choice is made. -/
theorem branches (h : BranchesSteps input room inside s f s') : inner s f s' := by
  induction h with
  | stop hbar => exact w.eat? hbar
  | more hbar hoperand _ ih =>
    have hoperand := w.inner_of (w.concat hinside hoperand)
    exact w.append_inner (w.append_inner (w.eat? hbar) hoperand) ih

theorem union (h : Reads (union input room inside) s f s') : outer s f s' := by
  cases unionSteps h with
  | one hflush hfirst hend =>
    have hfirst := w.before (w.concat hinside hfirst) (idle_nextIs hend)
    exact w.append (w.flush hflush) hfirst
  | more hflush hfirst hmore hrest =>
    have hfirst := w.before (w.concat hinside hfirst) (idle_nextIs hmore)
    have hboth := w.append_inner (w.inner_of hfirst) (w.branches hinside hrest)
    exact w.append (w.flush hflush) (w.node (by decide) hboth)

end Inside

/-- A regex at any depth. -/
theorem regex (room : Nat) (h : Reads (regex input room) s f s') : outer s f s' := by
  induction room generalizing s f s' with
  | zero =>
    refine w.union (fun reader hreader => ?_) h
    cases hreader
  | succ room ih =>
    refine w.union (fun reader hreader => ?_) h
    cases hreader
    exact ih

/-! ### Whole texts -/

theorem leftovers (h : LeftoversSteps input room s f s') : inner s f s' := by
  induction h with
  | stop hended => exact w.inner_of (w.idle (idle_atEnd hended))
  | @round _ more _ _ _ s₂ s₃ _ hended hmisplaced hmore _ ih =>
    have hmore : inner s₂ more s₃ := by
      cases hmore with
      | none hnext => exact w.inner_of (w.idle (idle_nextIn hnext))
      | regex hnext hmore =>
        exact w.after_inner (idle_nextIn hnext) (w.inner_of (w.regex room hmore))
    have hround := w.append_inner (w.append_inner (w.setAside hmisplaced) hmore) ih
    exact w.after_inner (idle_atEnd hended) hround

theorem root {limit : Nat} {tree : Tree} (h : Reads (root input limit) s tree s') :
    outer s [tree] s' := by
  cases rootSteps h with
  | empty hended hreport hflush =>
    have hbody := w.append (w.report hreport) (w.flush hflush)
    exact w.after (idle_atEnd hended) (w.node (by decide) (w.inner_of hbody))
  | read hended hfirst hrest hflush =>
    have hwords := w.append_inner (w.inner_of (w.regex limit hfirst)) (w.leftovers hrest)
    have hbody := w.append_inner hwords (w.inner_of (w.flush hflush))
    exact w.after (idle_atEnd hended) (w.node (by decide) hbody)

end Walk

end Parser

end CallChain
