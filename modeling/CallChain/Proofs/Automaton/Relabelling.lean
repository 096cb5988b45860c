import CallChain.Automaton.Dump
import CallChain.Automaton.Export
import CallChain.Proofs.Automaton.Numbering
import CallChain.Proofs.Renaming.Tables

/-!
# Automata under other handles

Two automata that differ in the handles of their actions and states only (`Relabels`) number their
states alike, because sorting by the canonical order of the actions forgets the handles. So their
dumps and their exports are the same (`Relabels.dump_eq`, `Relabels.exported_eq`).
-/

namespace CallChain

/-- A transition with other handles. -/
def Transition.rename (σ : ActionId ≃ ActionId) (f : StateId → StateId) (t : Transition) :
    Transition :=
  ⟨f t.source, σ t.action, t.successor.rename f⟩

namespace Automaton

variable {a a' : Automaton} {state target : StateId} {id : ActionId} {out : Outgoing}
  {t : Transition}

/-- Two automata that differ in their handles only: `σ` renames the actions, and `f` the states that
can be reached. -/
structure Relabels (σ : ActionId ≃ ActionId) (f : StateId → StateId) (a a' : Automaton) : Prop where
  table : a.table.Renames σ a'.table
  initial : a'.initial = f a.initial
  next_eq : ∀ q ∈ a.order, ∀ id, a'.next (f q) (σ id) = (a.next q id).map (Successor.rename f)
  injOn : ∀ q ∈ a.order, ∀ q' ∈ a.order, f q = f q' → q = q'

/-! ### Sorted transitions -/

theorem mem_inActionOrder :
    t ∈ a.inActionOrder state out ↔ t.source = state ∧ (t.action, t.successor) ∈ out := by
  rw [inActionOrder, mem_sortBy, List.mem_map]
  constructor
  · rintro ⟨e, he, rfl⟩
    exact ⟨rfl, he⟩
  · rintro ⟨rfl, he⟩
    exact ⟨_, he, rfl⟩

theorem isLE_compare_iff {id id' : ActionId} : (a.table.compare id id').isLE = true ↔
    a.table.order.idxOf id ≤ a.table.order.idxOf id' := Nat.isLE_compare

theorem isLE_compare_trans {id id' id'' : ActionId} (h : (a.table.compare id id').isLE = true)
    (h' : (a.table.compare id' id'').isLE = true) : (a.table.compare id id'').isLE = true := by
  rw [isLE_compare_iff] at h h' ⊢
  exact Nat.le_trans h h'

theorem isLE_compare_total (id id' : ActionId) :
    (a.table.compare id id').isLE = true ∨ (a.table.compare id' id).isLE = true := by
  rw [isLE_compare_iff, isLE_compare_iff]
  exact Nat.le_total _ _

theorem pairwise_inActionOrder : (a.inActionOrder state out).Pairwise
    fun s t => (a.table.compare s.action t.action).isLE = true := by
  refine pairwise_sortBy ?_ ?_ _
  · exact fun _ _ _ => isLE_compare_trans
  · exact fun _ _ => isLE_compare_total _ _

theorem next_of_mem_inActionOrder (h : a.WellFormed)
    (ht : t ∈ a.inActionOrder state (a.out state)) :
    a.next state t.action = some t.successor :=
  h.next_eq_some_iff.2 (mem_inActionOrder.1 ht).2

/-- Transitions of one state are told apart by the places of their actions. -/
theorem eq_of_idxOf_action_eq (h : a.WellFormed) {s : Transition}
    (hs : s ∈ a.inActionOrder state (a.out state)) (ht : t ∈ a.inActionOrder state (a.out state))
    (heq : a.table.order.idxOf s.action = a.table.order.idxOf t.action) : s = t := by
  have hnext := next_of_mem_inActionOrder h hs
  have hnext' := next_of_mem_inActionOrder h ht
  have haction : s.action = t.action :=
    (List.idxOf_inj (ActionTable.mem_order.2 (h.mem_ids_of_next hnext))).1 heq
  rw [haction, hnext'] at hnext
  obtain ⟨source, action, successor⟩ := s
  obtain ⟨source', action', successor'⟩ := t
  cases haction
  cases Option.some.inj hnext
  have hsource : source = source' :=
    (mem_inActionOrder.1 hs).1.trans (mem_inActionOrder.1 ht).1.symm
  rw [hsource]

namespace Relabels

variable {σ : ActionId ≃ ActionId} {f : StateId → StateId} (h : Relabels σ f a a')
  (ha : a.WellFormed) (ha' : a'.WellFormed)

include h ha ha'

theorem out_perm (hq : state ∈ a.order) :
    (a'.out (f state)).Perm ((a.out state).map fun e => (σ e.1, e.2.rename f)) := by
  have hnodup : ((a.out state).map fun e => (σ e.1, e.2.rename f)).Nodup := by
    refine List.Nodup.of_map Prod.fst ?_
    have hkeys := (ha.nodup state).map σ.injective
    rwa [List.map_map] at hkeys ⊢
  refine (List.perm_ext_iff_of_nodup (ha'.nodup _).of_map hnodup).2 fun e => ?_
  obtain ⟨id', s'⟩ := e
  rw [← ha'.next_eq_some_iff, ← σ.apply_symm_apply id', h.next_eq _ hq, List.mem_map,
    Option.map_eq_some_iff]
  constructor
  · rintro ⟨s, hs, rfl⟩
    exact ⟨_, ha.next_eq_some_iff.1 hs, rfl⟩
  · rintro ⟨⟨id, s⟩, he, heq⟩
    obtain ⟨hid, rfl⟩ := Prod.mk.inj heq
    refine ⟨s, ?_, rfl⟩
    rw [← (σ.injective hid : id = σ.symm id')]
    exact ha.next_eq_some_iff.2 he

/-- The canonical order of the transitions forgets the handles. -/
theorem inActionOrder_eq (hq : state ∈ a.order) :
    a'.inActionOrder (f state) (a'.out (f state)) =
      (a.inActionOrder state (a.out state)).map (Transition.rename σ f) := by
  refine sortBy_eq_of_perm ?_ ?_ ?_ ?_ ?_
  · exact fun _ _ _ => isLE_compare_trans
  · exact fun _ _ => isLE_compare_total _ _
  · intro s' hs' t' ht' hle hle'
    obtain ⟨s, hs, rfl⟩ := List.mem_map.1 hs'
    obtain ⟨t, ht, rfl⟩ := List.mem_map.1 ht'
    rw [isLE_compare_iff] at hle hle'
    have hplace := Nat.le_antisymm hle hle'
    simp only [Transition.rename, h.table.idxOf_order_eq] at hplace
    rw [eq_of_idxOf_action_eq ha hs ht hplace]
  · refine ((h.out_perm ha ha' hq).map _).trans ?_
    refine List.Perm.trans (List.Perm.of_eq ?_) ((sortBy_perm _ _).map _).symm
    rw [List.map_map, List.map_map]
    rfl
  · refine List.pairwise_map.2 (pairwise_inActionOrder.imp fun hle => ?_)
    rwa [Transition.rename, Transition.rename, h.table.compare_eq]

theorem targets_eq (hq : state ∈ a.order) : a'.targets (f state) = (a.targets state).map f := by
  show (a'.inActionOrder (f state) (a'.out (f state))).filterMap _ =
    ((a.inActionOrder state (a.out state)).filterMap _).map f
  rw [h.inActionOrder_eq ha ha' hq, List.filterMap_map, List.map_filterMap]
  refine List.filterMap_congr fun t _ => ?_
  cases hs : t.successor <;> simp [Transition.rename, Successor.rename, Successor.state?, hs]

/-- The states are met in the same order. -/
theorem order_eq : a'.order = a.order.map f := by
  have hreached (q : StateId) (hq : Reached a.targets [a.initial] q) : q ∈ a.order :=
    (mem_order_iff ha).2 hq
  have hcounts {b : Automaton} (hb : b.WellFormed) {bound : Nat} (hle : b.stateCount + 1 ≤ bound) :
      b.order = discover b.targets bound [b.initial] := by
    refine (discover_eq_of_le (confined_stateIds hb) ?_ hle).symm
    rw [stateIds, List.length_map, List.length_range]
    exact Nat.le_succ _
  have hmax := Nat.le_max_left (a.stateCount + 1) (a'.stateCount + 1)
  have hmax' := Nat.le_max_right (a.stateCount + 1) (a'.stateCount + 1)
  rw [hcounts ha hmax, hcounts ha' hmax', h.initial]
  show discover a'.targets _ ([a.initial].map f) = _
  refine discover_map ?_ ?_
  · exact fun q hq q' hq' => h.injOn q (hreached q hq) q' (hreached q' hq')
  · exact fun q hq => h.targets_eq ha ha' (hreached q hq)

/-! ### Dumps -/

theorem number_eq (hq : state ∈ a.order) :
    Numbering.number ⟨a'.order⟩ (f state) = Numbering.number ⟨a.order⟩ state := by
  have hq' : f state ∈ a'.order := h.order_eq ha ha' ▸ List.mem_map_of_mem hq
  rw [Automaton.number_eq hq', Automaton.number_eq hq, h.order_eq ha ha',
    idxOf_map fun q' hq' => h.injOn q' hq' state hq]

theorem transitions_eq (hq : state ∈ a.order) :
    a'.transitions (f state) = .ok ((a.inActionOrder state (a.out state)).map
      (Transition.rename σ f)) := by
  have hq' : f state ∈ a'.order := h.order_eq ha ha' ▸ List.mem_map_of_mem hq
  rw [Automaton.transitions_eq ha' (index_lt_of_mem_order ha' hq'), h.inActionOrder_eq ha ha' hq]

theorem isVarargsApplicable_eq (hq : state ∈ a.order)
    (ht : t ∈ a.inActionOrder state (a.out state)) :
    a'.isVarargsApplicable (t.rename σ f) = a.isVarargsApplicable t := by
  have hnext := next_of_mem_inActionOrder ha ht
  obtain ⟨action, hget⟩ := ActionTable.mem_ids.1 (ha.mem_ids_of_next hnext)
  cases hs : t.successor with
  | terminal => simp [isVarargsApplicable, Transition.rename, Successor.rename, hs]
  | state target =>
    rw [hs] at hnext
    have htarget := mem_order_of_next ha hq hnext
    have htarget' : f target ∈ a'.order := h.order_eq ha ha' ▸ List.mem_map_of_mem htarget
    have hloop : a'.next (f target) (σ t.action) = some (.state (f target)) ↔
        a.next target t.action = some (.state target) := by
      rw [h.next_eq _ htarget, Option.map_eq_some_iff]
      constructor
      · rintro ⟨s, hs, heq⟩
        cases s with
        | terminal => cases heq
        | state target' =>
          have hmem := mem_order_of_next ha htarget hs
          rw [hs, h.injOn _ hmem _ htarget (Successor.state.inj heq)]
      · exact fun hs => ⟨_, hs, rfl⟩
    simp only [isVarargsApplicable, Transition.rename, Successor.rename, hs,
      h.table.get_eq hget, successor?_eq (index_lt_of_mem_order ha htarget),
      successor?_eq (index_lt_of_mem_order ha' htarget')]
    refine bind_congr fun action => ?_
    split
    · rfl
    · exact congrArg Except.ok (decide_eq_decide.2 hloop)

variable (p : Palette)

theorem transitionText_eq (hq : state ∈ a.order)
    (ht : t ∈ a.inActionOrder state (a.out state)) :
    a'.transitionText p ⟨a'.order⟩ (t.rename σ f) = a.transitionText p ⟨a.order⟩ t := by
  have hnext := next_of_mem_inActionOrder ha ht
  obtain ⟨action, hget⟩ := ActionTable.mem_ids.1 (ha.mem_ids_of_next hnext)
  have hsuccessor : successorText p ⟨a'.order⟩ (t.successor.rename f) =
      successorText p ⟨a.order⟩ t.successor := by
    cases hs : t.successor with
    | terminal => rfl
    | state target =>
      rw [hs] at hnext
      exact congrArg (Except.map (stateText p)) (h.number_eq ha ha' (mem_order_of_next ha hq hnext))
  rw [transitionText, transitionText, h.isVarargsApplicable_eq ha ha' hq ht]
  simp only [Transition.rename, h.table.label_eq hget, hsuccessor]

theorem stateLine_eq {k : Nat} (hq : state ∈ a.order) :
    a'.stateLine p ⟨a'.order⟩ (f state, k) = a.stateLine p ⟨a.order⟩ (state, k) := by
  rw [stateLine, stateLine, h.transitions_eq ha ha' hq,
    Automaton.transitions_eq ha (index_lt_of_mem_order ha hq)]
  show (if _ then _ else _) = (if _ then _ else _)
  rw [List.isEmpty_map, mapM_map_eq fun t ht => h.transitionText_eq ha ha' p hq ht]

/-- Dumps show no handles. -/
theorem dump_eq : a'.dump p = a.dump p := by
  rw [dump, dump, numbering_eq ha, numbering_eq ha']
  show Except.map _ (a'.order.zipIdx.mapM _) = Except.map _ (a.order.zipIdx.mapM _)
  rw [h.order_eq ha ha', List.zipIdx_map]
  refine congrArg _ (mapM_map_eq fun entry hentry => ?_)
  have hq := List.fst_mem_of_mem_zipIdx hentry
  rw [← h.order_eq ha ha']
  exact h.stateLine_eq ha ha' p hq

/-! ### Exports -/

omit ha ha' in
theorem actionIndex_eq (hid : id ∈ a.table.ids) :
    a'.actionIndex (σ id) = a.actionIndex id := by
  have hmem := ActionTable.mem_order.2 hid
  have hmem' := ActionTable.mem_order.2 (h.table.mem_ids_iff.2 hid)
  rw [actionIndex, actionIndex, idxOf?_eq_some hmem, idxOf?_eq_some hmem',
    h.table.idxOf_order_eq]

theorem exportTransition_eq (hq : state ∈ a.order)
    (ht : t ∈ a.inActionOrder state (a.out state)) :
    a'.exportTransition ⟨a'.order⟩ (t.rename σ f) = a.exportTransition ⟨a.order⟩ t := by
  have hnext := next_of_mem_inActionOrder ha ht
  have hsuccessor : Numbering.successor ⟨a'.order⟩ (t.successor.rename f) =
      Numbering.successor ⟨a.order⟩ t.successor := by
    cases hs : t.successor with
    | terminal => rfl
    | state target =>
      rw [hs] at hnext
      exact congrArg (Except.map some) (h.number_eq ha ha' (mem_order_of_next ha hq hnext))
  rw [exportTransition, exportTransition, h.isVarargsApplicable_eq ha ha' hq ht]
  simp only [Transition.rename, h.actionIndex_eq (ha.mem_ids_of_next hnext), hsuccessor]

theorem exportState_eq {k : Nat} (hq : state ∈ a.order) :
    a'.exportState ⟨a'.order⟩ (f state, k) = a.exportState ⟨a.order⟩ (state, k) := by
  rw [exportState, exportState, h.transitions_eq ha ha' hq,
    Automaton.transitions_eq ha (index_lt_of_mem_order ha hq)]
  show Except.map _ (List.mapM _ _) = Except.map _ (List.mapM _ _)
  rw [mapM_map_eq fun t ht => h.exportTransition_eq ha ha' hq ht]

/-- Exports show no handles. -/
theorem exported_eq : a'.exported = a.exported := by
  have hactions : a'.table.order.mapM (fun id => (a'.table.get id).map Action.exported) =
      a.table.order.mapM fun id => (a.table.get id).map Action.exported := by
    rw [h.table.order_eq]
    refine mapM_map_eq fun id hid => ?_
    obtain ⟨action, hget⟩ := ActionTable.mem_ids.1 (ActionTable.mem_order.1 hid)
    rw [h.table.get_eq hget]
  have hstates : a'.order.zipIdx.mapM (a'.exportState ⟨a'.order⟩) =
      a.order.zipIdx.mapM (a.exportState ⟨a.order⟩) := by
    rw [h.order_eq ha ha', List.zipIdx_map]
    refine mapM_map_eq fun entry hentry => ?_
    have hq := List.fst_mem_of_mem_zipIdx hentry
    rw [← h.order_eq ha ha']
    exact h.exportState_eq ha ha' hq
  rw [exported, exported, numbering_eq ha, numbering_eq ha', hactions]
  show Except.bind _ _ = Except.bind _ _
  refine bind_congr fun actions => ?_
  exact congrArg (Except.map (ExportedAutomaton.mk 0 actions)) hstates

end Relabels

/-! ### Canonical automata -/

/-- A canonical automaton is the automaton with other state handles. -/
theorem relabels_canonical (ha : a.WellFormed) :
    Relabels (Equiv.refl ActionId) a.place a a.canonical where
  table := ⟨(List.map_id _).symm, fun _ => rfl⟩
  initial := place_initial.symm
  next_eq _ hq _ := next_canonical ha hq
  injOn _ hq _ _ heq := (List.idxOf_inj hq).1 (StateId.mk.inj heq)

/-- State handles do not show in the canonical automaton. -/
theorem Relabels.canonical_eq {f : StateId → StateId} (h : Relabels (Equiv.refl ActionId) f a a')
    (ha : a.WellFormed) (ha' : a'.WellFormed) (htable : a'.table = a.table) :
    a'.canonical = a.canonical := by
  have hplace (q : StateId) (hq : q ∈ a.order) : a'.place (f q) = a.place q := by
    rw [place, place, h.order_eq ha ha', idxOf_map fun p hp => h.injOn p hp q hq]
  have hout (q : StateId) (hq : q ∈ a.order) : a'.placedOut (f q) = a.placedOut q := by
    rw [placedOut, placedOut, sorted, sorted, h.inActionOrder_eq ha ha' hq, List.map_map,
      List.map_map, List.map_map]
    refine List.map_congr_left fun t ht => ?_
    have hnext := next_of_mem_inActionOrder ha ht
    obtain ⟨source, action, successor⟩ := t
    cases successor with
    | terminal => rfl
    | state target =>
      exact congrArg (fun k => (action, Successor.state k))
        (hplace target (mem_order_of_next ha hq hnext))
  rw [canonical, canonical, htable, h.order_eq ha ha', List.map_map,
    List.map_congr_left (f := a'.placedOut ∘ f) hout]

/-- A canonical automaton has canonical handles. -/
theorem canonical_canonical (ha : a.WellFormed) : a.canonical.canonical = a.canonical :=
  (relabels_canonical ha).canonical_eq ha (wellFormed_canonical ha) rfl

/-- The states of a canonical automaton stand in canonical order. -/
theorem order_canonical (ha : a.WellFormed) : a.canonical.order = a.canonical.stateIds := by
  rw [(relabels_canonical ha).order_eq ha (wellFormed_canonical ha), stateIds,
    stateCount_canonical]
  apply List.ext_getElem
  · simp
  · intro i hi _
    rw [List.length_map] at hi
    rw [List.getElem_map, List.getElem_map, List.getElem_range, place, nodup_order.idxOf_getElem]

end Automaton
end CallChain
