import CallChain.Proofs.Finite.Path

/-!
# The words of fragments

A fragment owns a region of nodes that no step leaves (`Nfa.Holds`). A combinator changes nodes of
the regions of its operands only, adds nodes of its own, and owns all of these afterwards
(`Nfa.Makes`); so what was built before and is no operand stays what it was.

* `Holds.of_changes`: a fragment whose region is not used up keeps its words.
* `Wired.le_of_respects`: what bounds the words of an automaton with more silent steps.
-/

namespace CallChain.Nfa

open scoped Computability

variable {n n' n'' : Nfa} {R S : Set Nat} {f g : Fragment} {L M : Language Nat} {a b p q : Nat}

/-! ### Steps of changed automata -/

@[simp] theorem size_connectSilent : (n.connectSilent a b).size = n.size := by
  simp [connectSilent, size]

@[simp] theorem alphabet_connectSilent : (n.connectSilent a b).alphabet = n.alphabet := rfl

theorem nodes_connectSilent (hq : q ≠ a) : (n.connectSilent a b).nodes[q]? = n.nodes[q]? := by
  simp [connectSilent, Array.getElem?_modify, hq.symm]

@[simp] theorem edgesOf_connectSilent : (n.connectSilent a b).edgesOf p = n.edgesOf p := by
  unfold edgesOf connectSilent
  rw [Array.getElem?_modify]
  split
  · cases n.nodes[p]? <;> rfl
  · rfl

theorem mem_silentSteps_connectSilent (ha : a < n.size) :
    q ∈ (n.connectSilent a b).silentSteps p ↔ q ∈ n.silentSteps p ∨ (p = a ∧ q = b) := by
  unfold silentSteps connectSilent
  rw [Array.getElem?_modify]
  by_cases hp : a = p
  · subst hp
    have hnode : n.nodes[a]? = some n.nodes[a] := Array.getElem?_eq_getElem ha
    simp [hnode]
  · simp [hp, Ne.symm hp]

theorem silentSteps_eq_nil (hp : n.size ≤ p) : n.silentSteps p = [] := by
  rw [silentSteps, Array.getElem?_eq_none hp]
  rfl

theorem edgesOf_eq_nil (hp : n.size ≤ p) : n.edgesOf p = [] := by
  rw [edgesOf, Array.getElem?_eq_none hp]
  rfl

theorem nodes_addPair (hq : q < n.size) : n.addPair.1.nodes[q]? = n.nodes[q]? := by
  have hne : q ≠ n.nodes.size := Nat.ne_of_lt hq
  have hne' : q ≠ n.nodes.size + 1 := Nat.ne_of_lt (Nat.lt_succ_of_lt hq)
  simp [addPair, addNode, Array.getElem?_push, hne, hne']

@[simp] theorem size_addPair : n.addPair.1.size = n.size + 2 := by
  simp [addPair, addNode, size]

@[simp] theorem alphabet_addPair : n.addPair.1.alphabet = n.alphabet := rfl

@[simp] theorem entry_addPair : n.addPair.2.entry = n.size := rfl

@[simp] theorem exit_addPair : n.addPair.2.exit = n.size + 1 := by
  simp [addPair, addNode, size]

theorem addPair_eq : n.addPair = (n.addPair.1, ⟨n.size, n.size + 1⟩) := by
  rw [← exit_addPair]
  rfl

/-- New nodes have no steps. -/
theorem node_addPair : n.addPair.1.nodes[p]? = n.nodes[p]? ∨
    n.addPair.1.nodes[p]? = some ⟨[], []⟩ ∧ n.nodes[p]? = none := by
  rcases Nat.lt_or_ge p n.size with hp | hp
  · exact .inl (nodes_addPair hp)
  · have hnone : n.nodes[p]? = none := Array.getElem?_eq_none hp
    rw [hnone]
    simp only [addPair, addNode, Array.getElem?_push, hnone]
    grind

@[simp] theorem silentSteps_addPair : n.addPair.1.silentSteps p = n.silentSteps p := by
  unfold silentSteps
  rcases node_addPair (n := n) (p := p) with h | ⟨h, hnone⟩
  · rw [h]
  · rw [h, hnone]
    rfl

@[simp] theorem edgesOf_addPair : n.addPair.1.edgesOf p = n.edgesOf p := by
  unfold edgesOf
  rcases node_addPair (n := n) (p := p) with h | ⟨h, hnone⟩
  · rw [h]
  · rw [h, hnone]
    rfl

/-! ### Fragments and what they own -/

variable (n) in
/-- A fragment owns a region, and its words are those of a language. -/
structure Holds (R : Set Nat) (f : Fragment) (L : Language Nat) : Prop extends Region n R where
  entry_mem : f.entry ∈ R
  exit_mem : f.exit ∈ R
  words_eq : n.words f = L

variable (n) in
/-- Fragments side by side, with regions apart from each other and a language each. -/
inductive Aligned : Set Nat → List Fragment → List (Language Nat) → Prop where
  | nil : Aligned ∅ [] []
  | cons {R S : Set Nat} {f : Fragment} {L : Language Nat} {fs : List Fragment}
      {Ls : List (Language Nat)} (hf : n.Holds R f L) (hfs : Aligned S fs Ls)
      (hdisjoint : Disjoint R S) : Aligned (R ∪ S) (f :: fs) (L :: Ls)

/-- The second automaton differs from the first in nodes of a set and in further nodes only. -/
structure Changes (R : Set Nat) (n n' : Nfa) : Prop where
  alphabet_eq : n'.alphabet = n.alphabet
  size_le : n.size ≤ n'.size
  same : ∀ q < n.size, q ∉ R → n'.nodes[q]? = n.nodes[q]?

/-- The nodes that the second automaton has and the first does not. -/
def added (n n' : Nfa) : Set Nat := {q | n.size ≤ q ∧ q < n'.size}

/-- A construction that uses up a region makes a fragment with a language; the fragment owns the
region and all nodes that were added. -/
structure Makes (n : Nfa) (R : Set Nat) (made : Nfa × Fragment) (L : Language Nat) : Prop where
  changes : Changes R n made.1
  holds : made.1.Holds (R ∪ n.added made.1) made.2 L

theorem Changes.refl (R : Set Nat) (n : Nfa) : Changes R n n :=
  ⟨rfl, Nat.le_refl _, fun _ _ _ => rfl⟩

theorem Changes.trans (h : Changes R n n') (h' : Changes S n' n'') (hS : S ⊆ R ∪ n.added n') :
    Changes R n n'' where
  alphabet_eq := h'.alphabet_eq.trans h.alphabet_eq
  size_le := Nat.le_trans h.size_le h'.size_le
  same q hq hqR := by
    have hqS : q ∉ S := by
      intro hmem
      rcases hS hmem with hmem | hmem
      · exact hqR hmem
      · exact Nat.not_lt.2 hmem.1 hq
    rw [h'.same q (Nat.lt_of_lt_of_le hq h.size_le) hqS, h.same q hq hqR]

theorem changes_connectSilent (ha : a ∈ R) : Changes R n (n.connectSilent a b) where
  alphabet_eq := rfl
  size_le := Nat.le_of_eq size_connectSilent.symm
  same _ _ hq := nodes_connectSilent fun heq => hq (heq ▸ ha)

/-- What a construction does not use up stays what it is. -/
theorem Holds.of_changes (hf : n.Holds R f L) (h : Changes S n n') (hdisjoint : Disjoint R S) :
    n'.Holds R f L := by
  have hnodes : ∀ q ∈ R, n'.nodes[q]? = n.nodes[q]? := fun q hq =>
    h.same q (hf.lt_size q hq) (Set.disjoint_left.1 hdisjoint hq)
  refine ⟨hf.toRegion.congr hnodes h.alphabet_eq, hf.entry_mem, hf.exit_mem, ?_⟩
  rw [← hf.words_eq]
  exact wordsTo_congr hnodes hf.toRegion h.alphabet_eq hf.entry_mem

theorem Aligned.region {fs : List Fragment} {Ls : List (Language Nat)} (h : n.Aligned R fs Ls) :
    n.Region R := by
  induction h with
  | nil => exact ⟨fun _ h => h.elim, fun _ h => h.elim, fun _ h => h.elim, fun _ h => h.elim⟩
  | cons hf _ _ ih => exact hf.toRegion.union ih

theorem Aligned.of_changes {fs : List Fragment} {Ls : List (Language Nat)}
    (hfs : n.Aligned R fs Ls) (h : Changes S n n') (hdisjoint : Disjoint R S) :
    n'.Aligned R fs Ls := by
  induction hfs with
  | nil => exact .nil
  | cons hf _ hRS ih =>
    rw [Set.disjoint_union_left] at hdisjoint
    exact .cons (hf.of_changes h hdisjoint.1) (ih hdisjoint.2) hRS

/-- A set that was a region is apart from all nodes that were added. -/
theorem Region.disjoint_added (hR : n.Region R) (n' : Nfa) : Disjoint R (n.added n') :=
  Set.disjoint_left.2 fun q hq hadded => Nat.not_lt.2 hadded.1 (hR.lt_size q hq)

/-! ### Further silent steps -/

/-- The second automaton has the steps of the first and some more silent ones. -/
structure Wired (n n' : Nfa) (wires : List (Nat × Nat)) : Prop where
  alphabet_eq : n'.alphabet = n.alphabet
  size_eq : n'.size = n.size
  silent_iff : ∀ p q, q ∈ n'.silentSteps p ↔ q ∈ n.silentSteps p ∨ (p, q) ∈ wires
  edges_eq : ∀ p, n'.edgesOf p = n.edgesOf p
  same : ∀ q, (∀ wire ∈ wires, wire.1 ≠ q) → n'.nodes[q]? = n.nodes[q]?

theorem Wired.refl (n : Nfa) : Wired n n [] where
  alphabet_eq := rfl
  size_eq := rfl
  silent_iff _ _ := by simp
  edges_eq _ := rfl
  same _ _ := rfl

theorem Wired.connectSilent {wires : List (Nat × Nat)} (h : Wired n n' wires) (ha : a < n.size) :
    Wired n (n'.connectSilent a b) ((a, b) :: wires) where
  alphabet_eq := h.alphabet_eq
  size_eq := size_connectSilent.trans h.size_eq
  silent_iff p q := by
    rw [mem_silentSteps_connectSilent (h.size_eq ▸ ha), h.silent_iff, List.mem_cons,
      Prod.mk.injEq]
    tauto
  edges_eq p := edgesOf_connectSilent.trans (h.edges_eq p)
  same q hq := by
    rw [List.forall_mem_cons] at hq
    rw [nodes_connectSilent hq.1.symm, h.same q hq.2]

/-- The order of the new steps, and whether one is listed twice, does not matter. -/
theorem Wired.congr {wires wires' : List (Nat × Nat)} (h : Wired n n' wires)
    (hmem : ∀ wire, wire ∈ wires ↔ wire ∈ wires') : Wired n n' wires' where
  alphabet_eq := h.alphabet_eq
  size_eq := h.size_eq
  silent_iff p q := by rw [h.silent_iff, hmem]
  edges_eq := h.edges_eq
  same q hq := h.same q fun wire hwire => hq wire ((hmem wire).1 hwire)

section Wired

variable {wires : List (Nat × Nat)} {K : Nat → Language Nat} {goal : Nat}

theorem Wired.wordsTo_le (h : Wired n n' wires) : n.wordsTo goal p ≤ n'.wordsTo goal p := by
  refine wordsTo_mono (fun p q hstep => (h.silent_iff p q).2 (.inl hstep)) ?_
  intro p r q hstep
  rwa [h.edges_eq p]

theorem Wired.wire_le (h : Wired n n' wires) (hwire : (p, q) ∈ wires) :
    n'.wordsTo goal q ≤ n'.wordsTo goal p :=
  wordsTo_le_of_silent ((h.silent_iff p q).2 (.inr hwire))

theorem Wired.region (h : Wired n n' wires) (hR : n.Region R)
    (hwires : ∀ wire ∈ wires, wire.2 ∈ R) : n'.Region R where
  lt_size p hp := h.size_eq ▸ hR.lt_size p hp
  silent_mem p hp q hstep := by
    rcases (h.silent_iff p q).1 hstep with hstep | hwire
    · exact hR.silent_mem p hp q hstep
    · exact hwires _ hwire
  edge_mem p hp r q hstep := hR.edge_mem p hp r q (h.edges_eq p ▸ hstep)
  stop_le p hp r q hstep := h.alphabet_eq ▸ hR.stop_le p hp r q (h.edges_eq p ▸ hstep)

/-- What the old steps respect, the new automaton respects if the new steps do. -/
theorem Wired.le_of_respects (h : Wired n n' wires) (hR : n.Region R)
    (hmem : ∀ wire ∈ wires, wire.2 ∈ R) (goal : Nat) (hK : n.Respects R K) (hgoal : 1 ≤ K goal)
    (hwires : ∀ wire ∈ wires, K wire.2 ≤ K wire.1) (hp : p ∈ R) : n'.wordsTo goal p ≤ K p := by
  refine Nfa.wordsTo_le (h.region hR hmem) ⟨?_, ?_⟩ hgoal hp
  · intro p hp q hstep
    rcases (h.silent_iff p q).1 hstep with hstep | hwire
    · exact hK.silent_le p hp q hstep
    · exact hwires _ hwire
  · intro p hp r q hstep
    exact hK.symbol_le p hp r q (h.edges_eq p ▸ hstep)

end Wired

end CallChain.Nfa
