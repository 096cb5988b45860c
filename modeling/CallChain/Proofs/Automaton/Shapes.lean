import CallChain.Proofs.Automaton.Relabelling
import CallChain.Proofs.Renaming.Languages

/-!
# Shapes of automata

The shape of a state says which chains are possible from it and which of them end the chain. In an
automaton in which no two states have one shape, the shape of the initial state determines
everything but the handles (`exists_relabels`): a state of one automaton is linked with a state of
the other if a chain leads to the first and the renamed chain to the second.
-/

namespace CallChain

def Successor.isTerminal : Successor → Bool
  | state _ => false
  | terminal => true

namespace Automaton

variable {a a' : Automaton} {s : Successor} {q p : StateId} {u chain : List ActionId}
  {id : ActionId}

variable (a s) in
/-- Does a chain end behind a successor, or does it lead to a state? None if it is not possible. -/
def shape (chain : List ActionId) : Option Bool :=
  (chain.foldlM a.taken s).map Successor.isTerminal

variable (a) in
/-- No two states that can be reached have one shape. -/
def Distinct : Prop :=
  ∀ q ∈ a.order, ∀ p ∈ a.order, a.shape (.state q) = a.shape (.state p) → q = p

theorem shape_append (hu : u.foldlM a.taken s = some (.state q)) (chain : List ActionId) :
    a.shape s (u ++ chain) = a.shape (.state q) chain := by
  rw [shape, List.foldlM_append, hu]
  rfl

theorem shape_singleton (q : StateId) (id : ActionId) :
    a.shape (.state q) [id] = (a.next q id).map Successor.isTerminal := by
  rw [shape, List.foldlM_cons]
  exact congrArg _ (bind_pure (a.next q id))

/-- Chains lead to every state that can be reached. -/
theorem exists_chain_of_mem_order (ha : a.WellFormed) (hq : q ∈ a.order) :
    ∃ chain : List ActionId, chain.foldlM a.taken (.state a.initial) = some (.state q) := by
  rw [mem_order_iff ha] at hq
  induction hq with
  | seed hq =>
    rw [List.mem_singleton.1 hq]
    exact ⟨[], rfl⟩
  | step _ hy ih =>
    obtain ⟨chain, hchain⟩ := ih
    obtain ⟨id, hid⟩ := mem_targets.1 hy
    refine ⟨chain ++ [id], ?_⟩
    rw [List.foldlM_append, hchain]
    show (a.next _ id).bind _ = _
    rw [ha.next_eq_some_iff.2 hid]
    rfl

/-! ### Canonical automata -/

theorem shape_canonical (ha : a.WellFormed) (hq : q ∈ a.order) :
    a.canonical.shape (.state (a.place q)) = a.shape (.state q) := by
  funext chain
  rw [shape, foldlM_taken_canonical ha hq, shape, Option.map_map]
  refine congrFun (congrArg Option.map (funext fun s => ?_)) _
  cases s <;> rfl

theorem Distinct.canonical (h : a.Distinct) (ha : a.WellFormed) : a.canonical.Distinct := by
  have hplace {q : StateId} (hq : q ∈ a.canonical.order) : ∃ o ∈ a.order, a.place o = q := by
    refine exists_place_eq ?_
    rw [← stateCount_canonical]
    exact index_lt_of_mem_order (wellFormed_canonical ha) hq
  intro q hq p hp hshape
  obtain ⟨o, ho, rfl⟩ := hplace hq
  obtain ⟨o', ho', rfl⟩ := hplace hp
  rw [shape_canonical ha ho, shape_canonical ha ho'] at hshape
  rw [h o ho o' ho' hshape]

/-! ### Linked states -/

/-- A state that a chain leads to, and one that the renamed chain leads to. -/
def Linked (σ : ActionId ≃ ActionId) (a a' : Automaton) (q p : StateId) : Prop :=
  ∃ chain : List ActionId, chain.foldlM a.taken (.state a.initial) = some (.state q) ∧
    (chain.map σ).foldlM a'.taken (.state a'.initial) = some (.state p)

section Linked

variable {σ : ActionId ≃ ActionId} (hshape : ∀ chain, a'.shape (.state a'.initial) (chain.map σ) =
  a.shape (.state a.initial) chain)

include hshape

theorem Linked.shape_eq (h : Linked σ a a' q p) (chain : List ActionId) :
    a'.shape (.state p) (chain.map σ) = a.shape (.state q) chain := by
  obtain ⟨u, hu, hu'⟩ := h
  rw [← shape_append hu, ← hshape, List.map_append, shape_append hu']

/-- Linked states take the same actions, which lead to linked states. -/
theorem Linked.next (h : Linked σ a a' q p) (id : ActionId) :
    (a.next q id = none ∧ a'.next p (σ id) = none) ∨
      (a.next q id = some .terminal ∧ a'.next p (σ id) = some .terminal) ∨
      ∃ q' p', a.next q id = some (.state q') ∧ a'.next p (σ id) = some (.state p') ∧
        Linked σ a a' q' p' := by
  have hkind := h.shape_eq hshape [id]
  rw [List.map_singleton, shape_singleton, shape_singleton] at hkind
  match hq : a.next q id, hp : a'.next p (σ id) with
  | none, none => exact .inl ⟨rfl, rfl⟩
  | some .terminal, some .terminal => exact .inr (.inl ⟨rfl, rfl⟩)
  | some (.state q'), some (.state p') =>
    refine .inr (.inr ⟨q', p', rfl, rfl, ?_⟩)
    obtain ⟨u, hu, hu'⟩ := h
    refine ⟨u ++ [id], ?_, ?_⟩
    · rw [List.foldlM_append, hu]
      show (a.next q id).bind _ = _
      rw [hq]
      rfl
    · rw [List.map_append, List.foldlM_append, hu']
      show (a'.next p (σ id)).bind _ = _
      rw [hp]
      rfl
  | none, some _ | some _, none | some .terminal, some (.state _)
  | some (.state _), some .terminal =>
    rw [hq, hp] at hkind
    cases hkind

omit hshape in
theorem Linked.mem_order (ha : a.WellFormed) (h : Linked σ a a' q p) : q ∈ a.order := by
  obtain ⟨u, hu, -⟩ := h
  exact mem_order_of_foldlM ha initial_mem_order hu

omit hshape in
theorem Linked.mem_order' (ha' : a'.WellFormed) (h : Linked σ a a' q p) : p ∈ a'.order := by
  obtain ⟨u, -, hu⟩ := h
  exact mem_order_of_foldlM ha' initial_mem_order hu

theorem Linked.right_unique (ha' : a'.WellFormed) (hdistinct' : a'.Distinct) {p' : StateId}
    (h : Linked σ a a' q p) (h' : Linked σ a a' q p') : p = p' := by
  refine hdistinct' p (h.mem_order' ha') p' (h'.mem_order' ha') (funext fun w => ?_)
  obtain ⟨chain, rfl⟩ := exists_map_eq σ w
  rw [h.shape_eq hshape, h'.shape_eq hshape]

theorem Linked.left_unique (ha : a.WellFormed) (hdistinct : a.Distinct) {q' : StateId}
    (h : Linked σ a a' q p) (h' : Linked σ a a' q' p) : q = q' := by
  refine hdistinct q (h.mem_order ha) q' (h'.mem_order ha) (funext fun chain => ?_)
  rw [← h.shape_eq hshape, ← h'.shape_eq hshape]

theorem exists_linked (ha : a.WellFormed) (hq : q ∈ a.order) : ∃ p, Linked σ a a' q p := by
  obtain ⟨chain, hchain⟩ := exists_chain_of_mem_order ha hq
  have hkind := hshape chain
  rw [shape, shape, hchain] at hkind
  obtain ⟨s, hs, hstate⟩ := Option.map_eq_some_iff.1 hkind
  cases s with
  | state p => exact ⟨p, chain, hchain, hs⟩
  | terminal => cases hstate

/-- Automata without states of one shape are told apart by their handles only, if their initial
states have one shape. -/
theorem exists_relabels (ha : a.WellFormed) (ha' : a'.WellFormed) (hdistinct : a.Distinct)
    (hdistinct' : a'.Distinct) (htable : a.table.Renames σ a'.table) :
    ∃ f, Relabels σ f a a' := by
  have hchoice : ∀ q, ∃ p, q ∈ a.order → Linked σ a a' q p := by
    intro q
    by_cases hq : q ∈ a.order
    · obtain ⟨p, hp⟩ := exists_linked hshape ha hq
      exact ⟨p, fun _ => hp⟩
    · exact ⟨q, fun hmem => absurd hmem hq⟩
  choose f hf using hchoice
  have hunique {q p : StateId} (h : Linked σ a a' q p) : p = f q :=
    h.right_unique hshape ha' hdistinct' (hf q (h.mem_order ha))
  refine ⟨f, htable, ?_, fun q hq id => ?_, fun q hq q' hq' heq => ?_⟩
  · exact hunique ⟨[], rfl, rfl⟩
  · rcases (hf q hq).next hshape id with ⟨hnone, hnone'⟩ | ⟨hend, hend'⟩ | ⟨r, r', hr, hr', hlinked⟩
    · rw [hnone, hnone']
      rfl
    · rw [hend, hend']
      rfl
    · rw [hr, hr', hunique hlinked]
      rfl
  · exact (hf q hq).left_unique hshape ha hdistinct (heq ▸ hf q' hq')

end Linked

end Automaton
end CallChain
