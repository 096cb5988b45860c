import CallChain.Proofs.Automaton.Chains
import CallChain.Proofs.Discovery

/-!
# Canonical automata

`Automaton.canonicalize` never fails on a well-formed automaton. What it makes is the automaton
itself, without the states that cannot be reached and with each state at its canonical place
(`canonicalize_eq`); so chains lead to the same places (`foldlM_taken_canonical`).
-/

namespace CallChain

namespace Automaton

variable {a : Automaton} {state target : StateId} {id : ActionId} {s : Successor}

/-! ### Sorted transitions -/

variable (a) in
/-- Transitions put into the canonical order of their actions. -/
def inActionOrder (state : StateId) (out : Outgoing) : List Transition :=
  sortBy (fun s t => (a.table.compare s.action t.action).isLE)
    (out.map fun (action, successor) => ⟨state, action, successor⟩)

variable (a) in
/-- The states that a state leads to, by canonical order of the actions; a missing state leads
nowhere. -/
def targets (state : StateId) : List StateId :=
  (a.inActionOrder state (a.out state)).filterMap (·.successor.state?)

variable (a state) in
/-- The transitions of a state in canonical order. -/
def sorted : Outgoing :=
  (a.inActionOrder state (a.out state)).map fun t => (t.action, t.successor)

theorem sorted_perm : (a.sorted state).Perm (a.out state) := by
  have hperm := (sortBy_perm (fun s t : Transition => (a.table.compare s.action t.action).isLE)
    ((a.out state).map fun e => ⟨state, e.1, e.2⟩)).map
      fun t : Transition => (t.action, t.successor)
  refine hperm.trans (List.Perm.of_eq ?_)
  rw [List.map_map]
  exact List.map_id _

theorem mem_targets : target ∈ a.targets state ↔ ∃ id, (id, .state target) ∈ a.out state := by
  simp only [← sorted_perm.mem_iff, sorted, targets, List.mem_filterMap, List.mem_map]
  constructor
  · rintro ⟨t, ht, htarget⟩
    cases hs : t.successor with
    | state q =>
      rw [hs] at htarget
      cases htarget
      exact ⟨t.action, t, ht, by rw [hs]⟩
    | terminal =>
      rw [hs] at htarget
      cases htarget
  · rintro ⟨id, t, ht, heq⟩
    refine ⟨t, ht, ?_⟩
    rw [show t.successor = .state target from congrArg Prod.snd heq]
    rfl

/-- All actions of a state have a rank by which they are sorted. -/
theorem transitions_eq (h : a.WellFormed) (hq : state.index < a.stateCount) :
    a.transitions state = .ok (a.inActionOrder state (a.out state)) := by
  have hids {step : Transition}
      (hstep : step ∈ (a.out state).map fun e => (⟨state, e.1, e.2⟩ : Transition)) :
      step.action ∈ a.table.ids := by
    obtain ⟨e, he, rfl⟩ := List.mem_map.1 hstep
    exact h.action_mem state e he
  rw [transitions, outgoing_eq hq, ok_bind]
  refine sortByM_eq fun s hs t ht => ?_
  rw [comesFirst, ActionTable.compared_eq (hids hs) (hids ht)]
  rfl

theorem successors_eq (h : a.WellFormed) (hq : state.index < a.stateCount) :
    a.successors state = .ok (a.targets state) := by
  have hbound : ∀ i ∈ (a.targets state).map (·.index), i < a.stateCount := by
    intro i hi
    obtain ⟨target, htarget, rfl⟩ := List.mem_map.1 hi
    obtain ⟨id, hid⟩ := mem_targets.1 htarget
    exact h.target state id target hid
  rw [successors, transitions_eq h hq, ok_bind]
  show (checkIndices a.stateCount ((a.targets state).map (·.index)) >>= fun _ =>
    Except.ok (a.targets state)) = _
  rw [checkIndices_eq hbound]
  rfl

/-! ### The order of the states -/

variable (a) in
/-- The states that can be reached, in canonical order. -/
def order : List StateId := discover a.targets (a.stateCount + 1) [a.initial]

variable (a state) in
/-- The handle under which a canonical automaton holds a state. -/
def place : StateId := ⟨a.order.idxOf state⟩

theorem nodup_order : a.order.Nodup := nodup_discover

theorem initial_mem_order : a.initial ∈ a.order :=
  seeds_prefix_discover.mem (mem_fresh_nil.2 (List.mem_singleton_self a.initial))

theorem place_initial : a.place a.initial = ⟨0⟩ := by
  obtain ⟨rest, hrest⟩ : ∃ rest, a.order = a.initial :: rest := by
    obtain ⟨rest, hrest⟩ : fresh [] [a.initial] <+: a.order := seeds_prefix_discover
    exact ⟨rest, hrest.symm⟩
  rw [place, hrest, List.idxOf_cons_self]

theorem mem_stateIds : state ∈ a.stateIds ↔ state.index < a.stateCount := by
  rw [stateIds, List.mem_map]
  constructor
  · rintro ⟨i, hi, rfl⟩
    exact List.mem_range.1 hi
  · exact fun h => ⟨state.index, List.mem_range.2 h, rfl⟩

section WellFormed

variable (h : a.WellFormed)

include h

theorem confined_stateIds : Confined a.targets [a.initial] a.stateIds := by
  refine ⟨?_, ?_⟩
  · intro q hq
    rw [List.mem_singleton.1 hq]
    exact mem_stateIds.2 h.initial
  · intro q _ q' hq'
    obtain ⟨id, hid⟩ := mem_targets.1 hq'
    exact mem_stateIds.2 (h.target q id q' hid)

theorem mem_order_iff : state ∈ a.order ↔ Reached a.targets [a.initial] state := by
  refine mem_discover_iff (confined_stateIds h) ?_
  rw [stateIds, List.length_map, List.length_range]
  exact Nat.le_succ _

theorem index_lt_of_mem_order (hq : state ∈ a.order) : state.index < a.stateCount :=
  mem_stateIds.1 ((confined_stateIds h).mem_of_reached ((mem_order_iff h).1 hq))

/-- Transitions lead to states that have a place. -/
theorem mem_order_of_next (hq : state ∈ a.order) (hnext : a.next state id = some (.state target)) :
    target ∈ a.order := by
  rw [mem_order_iff h] at hq ⊢
  exact .step hq (mem_targets.2 ⟨id, h.next_eq_some_iff.1 hnext⟩)

theorem numbering_eq : a.numbering = .ok ⟨a.order⟩ := by
  have hfound : discoverM a.successors (a.stateCount + 1) [a.initial] = .ok a.order :=
    discoverM_eq fun q hq => successors_eq h (index_lt_of_mem_order h hq)
  rw [numbering, checkIndex_eq h.initial, ok_bind, hfound]
  rfl

omit h in
theorem number_eq (hq : state ∈ a.order) :
    Numbering.number ⟨a.order⟩ state = .ok (a.order.idxOf state) := by
  rw [Numbering.number, Numbering.number?, idxOf?_eq_some hq]

end WellFormed

/-! ### The canonical automaton -/

variable (a state) in
/-- The transitions of a state between canonical places. -/
def placedOut : Outgoing := (a.sorted state).map fun e => (e.1, e.2.rename a.place)

variable (a) in
/-- The automaton with its states at their places. -/
def canonical : Automaton := ⟨a.table, (a.order.map a.placedOut).toArray, ⟨0⟩⟩

section Canonical

variable (h : a.WellFormed)

include h

theorem renumberedOutgoing_eq (hq : state ∈ a.order) :
    a.renumberedOutgoing ⟨a.order⟩ state = .ok (a.placedOut state) := by
  rw [renumberedOutgoing, transitions_eq h (index_lt_of_mem_order h hq)]
  show List.mapM _ (a.inActionOrder state (a.out state)) = _
  rw [placedOut, sorted, List.map_map]
  refine mapM_eq_ok fun t ht => ?_
  cases hs : t.successor with
  | terminal =>
    simp only [hs, Function.comp, Successor.rename, renumber]
    rfl
  | state target =>
    have hmem : (t.action, .state target) ∈ a.out state := by
      rw [← sorted_perm.mem_iff, ← hs]
      exact List.mem_map_of_mem (f := fun t : Transition => (t.action, t.successor)) ht
    have htarget := mem_order_of_next h hq (h.next_eq_some_iff.2 hmem)
    simp only [hs, Function.comp, Successor.rename, renumber, number_eq htarget]
    rfl

/-- Canonicalizing a well-formed automaton never fails. -/
theorem canonicalize_eq : a.canonicalize = .ok a.canonical := by
  rw [canonicalize, numbering_eq h]
  show (do
    let states ← a.order.mapM (a.renumberedOutgoing ⟨a.order⟩)
    return _) = _
  rw [mapM_eq_ok fun q hq => renumberedOutgoing_eq h hq]
  rfl

omit h in
theorem stateCount_canonical : a.canonical.stateCount = a.order.length := by
  simp [canonical, stateCount]

omit h in
theorem out_canonical (hq : state ∈ a.order) :
    a.canonical.out (a.place state) = a.placedOut state := by
  have hidx : a.order.idxOf state < a.order.length := List.idxOf_lt_length_iff.2 hq
  have hrow : a.canonical.outgoing? (a.place state) = some (a.placedOut state) := by
    show (a.order.map a.placedOut).toArray[a.order.idxOf state]? = _
    rw [List.getElem?_toArray, List.getElem?_map, List.getElem?_eq_getElem hidx,
      List.getElem_idxOf]
    rfl
  rw [out, hrow, Option.getD_some]

omit h in
/-- Every state of the canonical automaton is a place. -/
theorem exists_place_eq (hlt : state.index < a.order.length) :
    ∃ q ∈ a.order, a.place q = state := by
  refine ⟨a.order[state.index], List.getElem_mem hlt, ?_⟩
  rw [place, nodup_order.idxOf_getElem]

theorem next_canonical (hq : state ∈ a.order) :
    a.canonical.next (a.place state) id = (a.next state id).map (Successor.rename a.place) := by
  have hnodup : ((a.sorted state).map (·.1)).Nodup :=
    (sorted_perm.map (·.1)).nodup_iff.2 (h.nodup state)
  rw [next, out_canonical hq, placedOut, Outgoing.find?_map, Outgoing.find?,
    lookup_perm sorted_perm hnodup]
  rfl

omit h in
/-- A state with transitions is the place of some state. -/
theorem out_canonical_cases (state : StateId) :
    a.canonical.out state = [] ∨ ∃ q ∈ a.order, a.canonical.out state = a.placedOut q := by
  rcases Nat.lt_or_ge state.index a.order.length with hlt | hge
  · obtain ⟨q, hq, rfl⟩ := exists_place_eq hlt
    exact .inr ⟨q, hq, out_canonical hq⟩
  · have hnone : a.canonical.outgoing? state = none := by
      refine Array.getElem?_eq_none ?_
      simpa [canonical] using hge
    rw [out, hnone]
    exact .inl rfl

theorem wellFormed_canonical : a.canonical.WellFormed := by
  have hkeys (q : StateId) : ((a.placedOut q).map (·.1)).Perm ((a.out q).map (·.1)) := by
    rw [placedOut, List.map_map]
    exact sorted_perm.map _
  refine ⟨?_, ?_, ?_, ?_⟩
  · rw [stateCount_canonical]
    exact List.length_pos_of_mem initial_mem_order
  · intro q
    rcases out_canonical_cases q with hout | ⟨o, -, hout⟩
    · rw [hout]
      exact List.nodup_nil
    · rw [hout]
      exact (hkeys o).nodup_iff.2 (h.nodup o)
  · intro q e he
    rcases out_canonical_cases q with hout | ⟨o, -, hout⟩
    · rw [hout] at he
      cases he
    · rw [hout] at he
      obtain ⟨e', he', rfl⟩ := List.mem_map.1 he
      exact h.action_mem o e' (sorted_perm.mem_iff.1 he')
  · intro q id target he
    rcases out_canonical_cases q with hout | ⟨o, ho, hout⟩
    · rw [hout] at he
      cases he
    · rw [hout] at he
      obtain ⟨⟨id', s'⟩, he', heq⟩ := List.mem_map.1 he
      cases s' with
      | terminal => cases heq
      | state o' =>
        cases heq
        have hmem := mem_order_of_next h ho (h.next_eq_some_iff.2 (sorted_perm.mem_iff.1 he'))
        rw [stateCount_canonical]
        exact List.idxOf_lt_length_iff.2 hmem

/-- Chains lead to the places of where they led. -/
theorem foldlM_taken_canonical (hq : state ∈ a.order) (actions : List ActionId) :
    actions.foldlM a.canonical.taken (.state (a.place state)) =
      (actions.foldlM a.taken (.state state)).map (Successor.rename a.place) := by
  induction actions generalizing state with
  | nil => rfl
  | cons id actions ih =>
    rw [List.foldlM_cons, List.foldlM_cons]
    show (a.canonical.next (a.place state) id).bind _ = ((a.next state id).bind _).map _
    rw [next_canonical h hq]
    cases hnext : a.next state id with
    | none => rfl
    | some s =>
      cases s with
      | state target => exact ih (mem_order_of_next h hq hnext)
      | terminal => cases actions <;> rfl

theorem taken_canonical (hs : ∀ q, s = .state q → q ∈ a.order) :
    a.canonical.taken (s.rename a.place) id = (a.taken s id).map (Successor.rename a.place) := by
  cases s with
  | state q => exact next_canonical h (hs q rfl)
  | terminal => rfl

/-- Chains that begin at a state with a place lead to such states. -/
theorem mem_order_of_foldlM (hq : state ∈ a.order) {actions : List ActionId}
    (htarget : actions.foldlM a.taken (.state state) = some (.state target)) :
    target ∈ a.order := by
  induction actions generalizing state with
  | nil =>
    cases htarget
    exact hq
  | cons id actions ih =>
    rw [List.foldlM_cons] at htarget
    obtain ⟨s, hs, htarget⟩ := Option.bind_eq_some_iff.1 htarget
    cases s with
    | state q => exact ih (mem_order_of_next h hq hs) htarget
    | terminal => cases actions <;> cases htarget

omit h in
theorem exists_rename_place (hs : ∀ q, s = .state q → q ∈ a.order) :
    a.canonical.Exists (s.rename a.place) := by
  cases s with
  | state q =>
    show a.order.idxOf q < a.canonical.stateCount
    rw [stateCount_canonical]
    exact List.idxOf_lt_length_iff.2 (hs q rfl)
  | terminal => trivial

end Canonical

end Automaton
end CallChain
