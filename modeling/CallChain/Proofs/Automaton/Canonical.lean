import CallChain.Proofs.Automaton.Exports
import CallChain.Proofs.Automaton.Shapes
import CallChain.Proofs.Breadth
import Mathlib.Data.Set.Function

/-!
# Canonical numbers are a complete invariant

Canonical numbers list the states that can be reached, nearest first. Two automata over one table
have one canonical automaton exactly if their states that can be reached correspond to each other,
with the initial states and all transitions (`Corresponds`): a correspondence is a relabelling,
which does not show in the canonical automaton, and from one canonical automaton a correspondence is
read off by going from a state to its place and back.

* `pairwise_order`: a state is not nearer than one in front of it.
* `canonical_eq_iff`: when canonical automata are equal.
* `canonicalize_exact`: the two, for automata that are built step by step.
-/

namespace CallChain

namespace Automaton

variable {a a' : Automaton} {p q : StateId} {id : ActionId} {f : StateId → StateId}

/-- A chain leads to the state. -/
def Reachable (a : Automaton) (q : StateId) : Prop :=
  ∃ actions, a.chain (.state a.initial) actions = .ok (some (.state q))

/-- What leads to the second state has a way to the first one that is not longer. -/
def NotFarther (a : Automaton) (p q : StateId) : Prop :=
  ∀ actions, a.chain (.state a.initial) actions = .ok (some (.state q)) →
    ∃ actions', a.chain (.state a.initial) actions' = .ok (some (.state p)) ∧
      actions'.length ≤ actions.length

/-- The states that can be reached correspond to each other, with all transitions. -/
structure Corresponds (f : StateId → StateId) (a a' : Automaton) : Prop where
  bijOn : Set.BijOn f {q | a.Reachable q} {q | a'.Reachable q}
  initial : f a.initial = a'.initial
  successor?_eq : ∀ q, a.Reachable q → ∀ id,
    a'.successor? (f q) id = (a.successor? q id).map (Option.map (Successor.rename f))

/-! ### States by distance -/

section Order

variable (ha : a.WellFormed)

include ha

theorem chain_initial_eq (actions : List ActionId) :
    a.chain (.state a.initial) actions = .ok (actions.foldlM a.taken (.state a.initial)) :=
  chain_eq ha (show a.Exists (.state a.initial) from ha.initial) actions

theorem chain_initial_eq_iff {actions : List ActionId} :
    a.chain (.state a.initial) actions = .ok (some (.state q)) ↔
      actions.foldlM a.taken (.state a.initial) = some (.state q) := by
  rw [chain_initial_eq ha, Except.ok.injEq]

theorem mem_order_iff_reachable : q ∈ a.order ↔ a.Reachable q := by
  constructor
  · intro hq
    obtain ⟨actions, hactions⟩ := exists_chain_of_mem_order ha hq
    exact ⟨actions, (chain_initial_eq_iff ha).2 hactions⟩
  · rintro ⟨actions, hactions⟩
    exact mem_order_of_foldlM ha initial_mem_order ((chain_initial_eq_iff ha).1 hactions)

theorem reached_iff_reachable : Reached a.targets [a.initial] q ↔ a.Reachable q := by
  rw [← mem_order_iff ha, mem_order_iff_reachable ha]

theorem chain_snoc {actions : List ActionId}
    (hq : a.chain (.state a.initial) actions = .ok (some (.state q))) (id : ActionId) :
    a.chain (.state a.initial) (actions ++ [id]) = .ok (a.next q id) := by
  rw [chain_initial_eq ha, List.foldlM_append, (chain_initial_eq_iff ha).1 hq]
  exact congrArg Except.ok (bind_pure (a.next q id))

theorem exists_of_chain_snoc {actions : List ActionId}
    (hq : a.chain (.state a.initial) (actions ++ [id]) = .ok (some (.state q))) :
    ∃ o, a.chain (.state a.initial) actions = .ok (some (.state o)) ∧ q ∈ a.targets o := by
  rw [chain_initial_eq_iff ha, List.foldlM_append] at hq
  obtain ⟨s, hs, htaken⟩ := Option.bind_eq_some_iff.1 hq
  rw [List.foldlM_cons] at htaken
  cases s with
  | terminal => cases htaken
  | state o =>
    have hnext : a.next o id = some (.state q) := (bind_pure (a.next o id)).symm.trans htaken
    exact ⟨o, (chain_initial_eq_iff ha).2 hs,
      mem_targets.2 ⟨id, ha.next_eq_some_iff.1 hnext⟩⟩

/-- A state is not farther than another one if it follows a state that is nearer than that. -/
theorem notFarther_of_mem_targets {actions : List ActionId}
    (hp : a.chain (.state a.initial) actions = .ok (some (.state p))) {target : StateId}
    (htarget : target ∈ a.targets p)
    (hq : ∀ actions', a.chain (.state a.initial) actions' = .ok (some (.state q)) →
      actions.length < actions'.length) : a.NotFarther target q := by
  intro actions' hactions'
  obtain ⟨id, hid⟩ := mem_targets.1 htarget
  refine ⟨actions ++ [id], ?_, ?_⟩
  · rw [chain_snoc ha hp, ha.next_eq_some_iff.2 hid]
  · rw [List.length_append]
    exact hq actions' hactions'

/-- The shortest chains to a state end with a transition from a nearer one. -/
theorem exists_nearer (hq : a.Reachable q) (hne : q ≠ a.initial) : ∃ o actions,
    a.chain (.state a.initial) actions = .ok (some (.state o)) ∧ q ∈ a.targets o ∧
      ∀ actions', a.chain (.state a.initial) actions' = .ok (some (.state q)) →
        actions.length < actions'.length := by
  obtain ⟨shortest, hshortest, hleast⟩ :=
    (measure fun actions : List ActionId => actions.length).wf.has_min
      {actions | a.chain (.state a.initial) actions = .ok (some (.state q))} hq
  rcases List.eq_nil_or_concat' shortest with rfl | ⟨actions, id, rfl⟩
  · cases hshortest
    exact absurd rfl hne
  · obtain ⟨o, ho, htarget⟩ := exists_of_chain_snoc ha hshortest
    refine ⟨o, actions, ho, htarget, fun actions' hactions' => ?_⟩
    have hle : ¬actions'.length < (actions ++ [id]).length := hleast actions' hactions'
    rw [List.length_append] at hle
    exact Nat.not_lt.1 hle

/-- A search meets states in the order of their distances. -/
theorem searchOrder_notFarther : SearchOrder a.targets a.initial a.NotFarther where
  start_before _ _ _ _ _ := ⟨[], rfl, Nat.zero_le _⟩
  exists_origin q hq hne := by
    obtain ⟨o, actions, ho, htarget, hshort⟩ :=
      exists_nearer ha ((reached_iff_reachable ha).1 hq) hne
    refine ⟨o, (reached_iff_reachable ha).2 ⟨actions, ho⟩, htarget, ?_, ?_⟩
    · intro p hp target hmem
      obtain ⟨actions', hactions', hle⟩ := hp actions ho
      exact notFarther_of_mem_targets ha hactions' hmem fun w hw => hle.trans_lt (hshort w hw)
    · intro pre post heq _ target hmem
      refine notFarther_of_mem_targets ha ho ?_ hshort
      rw [heq]
      exact List.mem_append_left _ hmem

/-- A state is not nearer than one in front of it. -/
theorem pairwise_order : a.order.Pairwise a.NotFarther :=
  pairwise_discover (searchOrder_notFarther ha)

end Order

/-! ### Correspondences -/

theorem place_inj (hq : q ∈ a.order) : a.place q = a.place p ↔ q = p := by
  rw [place, place, StateId.mk.injEq, List.idxOf_inj hq]

theorem successor?_eq_of_reachable (ha : a.WellFormed) (hq : a.Reachable q) (id : ActionId) :
    a.successor? q id = .ok (a.next q id) :=
  successor?_eq (index_lt_of_mem_order ha ((mem_order_iff_reachable ha).2 hq)) id

/-- States correspond to each other if and only if the automata differ in their handles only. -/
theorem corresponds_iff (ha : a.WellFormed) (ha' : a'.WellFormed) (htable : a.table = a'.table) :
    Corresponds f a a' ↔ Relabels (Equiv.refl ActionId) f a a' := by
  constructor
  · intro h
    refine ⟨htable ▸ ⟨(List.map_id _).symm, fun _ => rfl⟩, h.initial.symm, ?_, ?_⟩
    · intro q hq id
      have hreached := (mem_order_iff_reachable ha).1 hq
      have heq := h.successor?_eq q hreached id
      rw [successor?_eq_of_reachable ha hreached,
        successor?_eq_of_reachable ha' (h.bijOn.mapsTo hreached)] at heq
      exact Except.ok.inj heq
    · intro q hq q' hq' heq
      exact h.bijOn.injOn ((mem_order_iff_reachable ha).1 hq)
        ((mem_order_iff_reachable ha).1 hq') heq
  · intro h
    have hmem (p : StateId) : a'.Reachable p ↔ ∃ q, a.Reachable q ∧ f q = p := by
      simp only [← mem_order_iff_reachable ha, ← mem_order_iff_reachable ha',
        h.order_eq ha ha', List.mem_map]
    refine ⟨⟨?_, ?_, ?_⟩, h.initial.symm, ?_⟩
    · exact fun q hq => (hmem _).2 ⟨q, hq, rfl⟩
    · intro q hq q' hq' heq
      exact h.injOn q ((mem_order_iff_reachable ha).2 hq) q'
        ((mem_order_iff_reachable ha).2 hq') heq
    · exact fun p hp => (hmem p).1 hp
    · intro q hq id
      rw [successor?_eq_of_reachable ha hq,
        successor?_eq_of_reachable ha' ((hmem _).2 ⟨q, hq, rfl⟩)]
      exact congrArg Except.ok (h.next_eq q ((mem_order_iff_reachable ha).2 hq) id)

/-- Successors with one place are the same under other handles. -/
theorem eq_rename_of_place_eq {s s' : Successor} (hf : ∀ q ∈ a.order, a'.place (f q) = a.place q)
    (hs : ∀ p, s = .state p → p ∈ a.order) (hs' : ∀ p, s' = .state p → p ∈ a'.order)
    (h : s'.rename a'.place = s.rename a.place) : s' = s.rename f := by
  match s, s' with
  | .terminal, .terminal => rfl
  | .terminal, .state _ | .state _, .terminal => cases h
  | .state p, .state p' =>
    have hplace : a'.place p' = a'.place (f p) :=
      (Successor.state.inj h).trans (hf p (hs p rfl)).symm
    exact congrArg Successor.state ((place_inj (hs' p' rfl)).1 hplace)

/-- Automata with one canonical automaton differ in their handles only: a state is relabelled by way
of its place. -/
theorem exists_relabels_of_canonical_eq (ha : a.WellFormed) (ha' : a'.WellFormed)
    (h : a.canonical = a'.canonical) : ∃ f, Relabels (Equiv.refl ActionId) f a a' := by
  have hlength : a.order.length = a'.order.length := by
    rw [← stateCount_canonical, ← stateCount_canonical, h]
  have hchoice : ∀ q, ∃ p, q ∈ a.order → p ∈ a'.order ∧ a'.place p = a.place q := by
    intro q
    by_cases hq : q ∈ a.order
    · have hlt : (a.place q).index < a'.order.length := hlength ▸ List.idxOf_lt_length_iff.2 hq
      obtain ⟨p, hp, hplace⟩ := exists_place_eq hlt
      exact ⟨p, fun _ => ⟨hp, hplace⟩⟩
    · exact ⟨q, fun hmem => absurd hmem hq⟩
  choose f hf using hchoice
  have htable : a.canonical.table = a'.canonical.table := by rw [h]
  change a.table = a'.table at htable
  refine ⟨f, htable ▸ ⟨(List.map_id _).symm, fun _ => rfl⟩, ?_, fun q hq id => ?_,
    fun q hq q' hq' heq => ?_⟩
  · rw [← place_inj initial_mem_order, (hf _ initial_mem_order).2, place_initial, place_initial]
  · have hplaced : a'.canonical.next (a'.place (f q)) id = _ := next_canonical ha' (hf q hq).1
    rw [(hf q hq).2, ← h, next_canonical ha hq] at hplaced
    cases hnext : a.next q id with
    | none => simpa [hnext] using hplaced.symm
    | some s =>
      rw [hnext, Option.map_some, eq_comm] at hplaced
      obtain ⟨s', hnext', hrename⟩ := Option.map_eq_some_iff.1 hplaced
      show a'.next (f q) id = _
      rw [hnext', Option.map_some, Option.some.injEq]
      refine eq_rename_of_place_eq (fun q hq => (hf q hq).2) ?_ ?_ hrename
      · rintro p rfl
        exact mem_order_of_next ha hq hnext
      · rintro p rfl
        exact mem_order_of_next ha' (hf q hq).1 hnext'
  · rw [← place_inj hq, ← (hf q hq).2, ← (hf q' hq').2, heq]

/-- Automata over one table have one canonical automaton if and only if their states correspond to
each other. -/
theorem canonical_eq_iff (ha : a.WellFormed) (ha' : a'.WellFormed) (htable : a.table = a'.table) :
    a.canonical = a'.canonical ↔ ∃ f, Corresponds f a a' := by
  constructor
  · intro h
    obtain ⟨f, hf⟩ := exists_relabels_of_canonical_eq ha ha' h
    exact ⟨f, (corresponds_iff ha ha' htable).2 hf⟩
  · rintro ⟨f, hf⟩
    exact (((corresponds_iff ha ha' htable).1 hf).canonical_eq ha ha' htable.symm).symm

/-! ### Automata that are built step by step -/

theorem number?_eq_some_iff {k : Nat} :
    Numbering.number? ⟨a.order⟩ q = some k ↔ a.order[k]? = some q := by
  rw [Numbering.number?]
  constructor
  · intro h
    by_cases hq : q ∈ a.order
    · rw [idxOf?_eq_some hq, Option.some.injEq] at h
      rw [← h, List.getElem?_idxOf hq]
    · rw [List.idxOf?_eq_none_iff.2 hq] at h
      cases h
  · intro h
    obtain ⟨hk, rfl⟩ := List.getElem?_eq_some_iff.1 h
    rw [idxOf?_eq_some (List.getElem_mem hk), nodup_order.idxOf_getElem]

theorem getElem?_order_zero : a.order[0]? = some a.initial := by
  rw [← number?_eq_some_iff, Numbering.number?, idxOf?_eq_some initial_mem_order]
  exact congrArg some (StateId.mk.inj place_initial)

/-- Canonical numbers list the states that can be reached, each once, the initial one first and none
nearer than one in front of it. The canonical automaton of a canonical automaton is that automaton;
it has the dumps and the export of the one it was made from. And automata over one table have one
canonical automaton exactly if their states correspond to each other. -/
theorem canonicalize_exact :
    (∀ a : Automaton, a.Built →
      (∃ n, a.numbering = .ok n ∧ n.order.Nodup ∧ (∀ q, q ∈ n.order ↔ a.Reachable q) ∧
        n.order[0]? = some a.initial ∧
        (∀ q k, n.number? q = some k ↔ n.order[k]? = some q) ∧
        n.order.Pairwise a.NotFarther) ∧
      ∃ c, a.canonicalize = .ok c ∧ c.canonicalize = .ok c ∧
        (∀ p, ∃ text, a.dump p = .ok text ∧ c.dump p = .ok text) ∧
        ∃ e, a.exported = .ok e ∧ c.exported = .ok e) ∧
    ∀ a a' : Automaton, a.Built → a'.Built → a.table = a'.table →
      (a.canonicalize = a'.canonicalize ↔ ∃ f, Corresponds f a a') := by
  constructor
  · intro a hbuilt
    have ha := hbuilt.wellFormed
    have hcanonical := wellFormed_canonical ha
    have hrelabels := relabels_canonical ha
    refine ⟨⟨⟨a.order⟩, numbering_eq ha, nodup_order, fun q => mem_order_iff_reachable ha,
      getElem?_order_zero, fun q k => number?_eq_some_iff, pairwise_order ha⟩,
      a.canonical, canonicalize_eq ha, ?_, fun p => ?_, ?_⟩
    · rw [canonicalize_eq hcanonical, canonical_canonical ha]
    · obtain ⟨text, htext⟩ := exists_dump ha p
      exact ⟨text, htext, (hrelabels.dump_eq ha hcanonical p).trans htext⟩
    · obtain ⟨e, he⟩ := exists_exported ha
      exact ⟨e, he, (hrelabels.exported_eq ha hcanonical).trans he⟩
  · intro a a' hbuilt hbuilt' htable
    have ha := hbuilt.wellFormed
    have ha' := hbuilt'.wellFormed
    rw [canonicalize_eq ha, canonicalize_eq ha', Except.ok.injEq, canonical_eq_iff ha ha' htable]

/-- Two actions, whose canonical order is not that of the table. -/
def forkActions : ActionTable := ⟨[.ofName "b", .ofName "a"], [⟨1⟩, ⟨0⟩], by decide, by decide⟩

/-- `b` leads to a state that `a` leads back to, and `a` to a state where it ends the chain. -/
def fork : Automaton := ⟨forkActions, #[[(⟨0⟩, .state ⟨1⟩), (⟨1⟩, .state ⟨2⟩)],
  [(⟨1⟩, .state ⟨1⟩)], [(⟨1⟩, .terminal)]], ⟨0⟩⟩

/-- The same in another order, with a state that cannot be reached. -/
def reordered : Automaton := ⟨forkActions, #[[(⟨1⟩, .state ⟨3⟩), (⟨0⟩, .state ⟨2⟩)],
  [(⟨0⟩, .state ⟨2⟩)], [(⟨1⟩, .state ⟨2⟩)], [(⟨1⟩, .terminal)]], ⟨0⟩⟩

theorem canonicalize_exact_fork : fork.Built ∧ reordered.Built ∧
    (∃ n, fork.numbering = .ok n ∧ n.order = [⟨0⟩, ⟨2⟩, ⟨1⟩] ∧ n.order.Pairwise fork.NotFarther) ∧
    (∃ c, fork.canonicalize = .ok c ∧ c.canonicalize = .ok c) ∧
    ∃ f, Corresponds f fork reordered := by
  have hfork : fork.Built :=
    (Built.ofTable forkActions).addState.addState.connectAll
      [⟨⟨0⟩, ⟨0⟩, .state ⟨1⟩⟩, ⟨⟨0⟩, ⟨1⟩, .state ⟨2⟩⟩, ⟨⟨1⟩, ⟨1⟩, .state ⟨1⟩⟩,
        -- replaced by the one behind it
        ⟨⟨2⟩, ⟨1⟩, .state ⟨0⟩⟩, ⟨⟨2⟩, ⟨1⟩, .terminal⟩] rfl
  have hreordered : reordered.Built :=
    (Built.ofTable forkActions).addState.addState.addState.connectAll
      [⟨⟨3⟩, ⟨1⟩, .terminal⟩, ⟨⟨1⟩, ⟨0⟩, .state ⟨2⟩⟩, ⟨⟨2⟩, ⟨1⟩, .state ⟨2⟩⟩,
        ⟨⟨0⟩, ⟨1⟩, .state ⟨3⟩⟩, ⟨⟨0⟩, ⟨0⟩, .state ⟨2⟩⟩] rfl
  obtain ⟨hone, hequal⟩ := canonicalize_exact
  obtain ⟨⟨n, hn, -, -, -, -, hpairwise⟩, c, hc, hidempotent, -⟩ := hone fork hfork
  have horder : fork.numbering = .ok ⟨[⟨0⟩, ⟨2⟩, ⟨1⟩]⟩ := rfl
  have hsame : fork.canonicalize = reordered.canonicalize := rfl
  rw [horder] at hn
  cases hn
  exact ⟨hfork, hreordered, ⟨_, horder, rfl, hpairwise⟩, ⟨c, hc, hidempotent⟩,
    (hequal fork reordered hfork hreordered rfl).1 hsame⟩

end Automaton
end CallChain
