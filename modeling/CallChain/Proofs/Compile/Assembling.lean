import CallChain.Compile.Assembly
import CallChain.Proofs.Alphabet
import CallChain.Proofs.Automaton.Building
import CallChain.Proofs.Automaton.Numbering
import CallChain.Proofs.Finite.Access

/-!
# Assembling state by state

First the states that are kept get their handles, then each of them gets its transitions. No handle
is written or read outside of the table of handles, and no transition leads to a missing state, so
each step succeeds.

* `Assembly.exists_states`: the states that are kept, and their handles.
* `foldlM_assembleEdge`: the transitions of one state.
* `assembleStates_eq`: all of them.
-/

namespace CallChain

namespace Dfa

/-- The initial state, and the others where something can be taken. -/
def openStates (d : Dfa) : List Nat :=
  d.initial :: d.states.filter fun s => s ≠ d.initial && d.hasTransitions s

variable {d : Dfa} {q : Nat}

theorem mem_openStates :
    q ∈ d.openStates ↔ q = d.initial ∨ ∃ s q', d.next q s = some q' := by
  simp only [openStates, List.mem_cons, List.mem_filter, states, List.mem_range,
    Bool.and_eq_true, decide_eq_true_eq, hasTransitions_iff]
  constructor
  · rintro (h | ⟨-, -, h⟩)
    · exact .inl h
    · exact .inr h
  · rintro (h | ⟨s, q', h⟩)
    · exact .inl h
    · by_cases hq : q = d.initial
      · exact .inl hq
      · exact .inr ⟨lt_size_of_next h, hq, s, q', h⟩

theorem nodup_openStates : d.openStates.Nodup := by
  refine List.nodup_cons.2 ⟨?_, List.nodup_range.filter _⟩
  simp

theorem nodup_edges : ((d.edges q).map (·.1)).Nodup := by
  have hsublist : ((d.edges q).map (·.1)).Sublist ((d.targets q).zipIdx.map (·.2)) := by
    rw [edges, List.map_filterMap]
    induction (d.targets q).zipIdx with
    | nil => exact .refl _
    | cons entry entries ih =>
      obtain ⟨target, symbol⟩ := entry
      rw [List.filterMap_cons, List.map_cons]
      cases target with
      | none => exact ih.cons _
      | some target => exact ih.cons_cons _
  refine hsublist.nodup ?_
  rw [List.zipIdx_map_snd]
  exact List.nodup_range'

end Dfa

namespace Alphabet

/-- The successor on an action that leads to a state, `kept` being the states of the result. -/
def successorOn (kept : List Nat) (action : Action) (target : Nat) : Successor :=
  if action.isTerminator then
    .terminal
  else
    match kept.idxOf? target with
    | some k => .state ⟨k⟩
    | none => .terminal

variable {t : ActionTable} {d : Dfa} {kept : List Nat} {q q' : Nat} {id : ActionId} {s : Successor}

/-! ### What is assembled -/

variable (t kept) in
/-- A transition on an action, none on a symbol that is no action. -/
def assembledEdge (edge : Nat × Nat) : Option (ActionId × Successor) :=
  ((ofTable t).action? edge.1).bind fun id =>
    (t.get? id).map fun action => (id, successorOn kept action edge.2)

variable (t d kept q) in
/-- The transitions of a state. -/
def assembledOut : Outgoing := (d.edges q).filterMap (assembledEdge t kept)

variable (t kept) in
/-- A chain automaton with a state for each one that is kept, and the transitions it has so far. -/
def withRows (rows : Nat → Outgoing) : Automaton := ⟨t, (kept.map rows).toArray, ⟨0⟩⟩

variable (t d) in
/-- The chain automaton before its states are numbered. -/
def assembled : Automaton := withRows t d.openStates (assembledOut t d d.openStates)

theorem exists_get_of_action? {symbol : Nat} (h : (ofTable t).action? symbol = some id) :
    ∃ action, t.get? id = some action :=
  ActionTable.mem_ids.1 (mem_actions.1 (List.mem_of_getElem? h))

theorem mem_assembledOut : (id, s) ∈ assembledOut t d kept q ↔
    ∃ action q', t.get? id = some action ∧ d.next q ((ofTable t).symbol id) = some q' ∧
      s = successorOn kept action q' := by
  simp only [assembledOut, assembledEdge, List.mem_filterMap, Option.bind_eq_some_iff,
    Option.map_eq_some_iff, Prod.mk.injEq]
  constructor
  · rintro ⟨edge, hedge, id, haction, action, hget, rfl, rfl⟩
    rw [Dfa.mem_edges, ← symbol_of_action? (nodup_actions t) haction] at hedge
    exact ⟨action, edge.2, hget, hedge, rfl⟩
  · rintro ⟨action, q', hget, hnext, rfl⟩
    have hid := mem_actions.2 (ActionTable.mem_ids.2 ⟨action, hget⟩)
    exact ⟨((ofTable t).symbol id, q'), Dfa.mem_edges.2 hnext, id, action?_symbol hid, action,
      hget, rfl, rfl⟩

theorem nodup_assembledOut : ((assembledOut t d kept q).map (·.1)).Nodup := by
  have hkeys : (assembledOut t d kept q).map (·.1) =
      ((d.edges q).map (·.1)).filterMap fun symbol =>
        ((ofTable t).action? symbol).bind fun id => (t.get? id).map fun _ => id := by
    rw [assembledOut, List.map_filterMap, List.filterMap_map]
    refine List.filterMap_congr fun edge _ => ?_
    simp only [assembledEdge, Function.comp, Option.map_bind, Option.map_map]
    rfl
  rw [hkeys]
  refine Dfa.nodup_edges.filterMap fun symbol symbol' id h h' => ?_
  simp only [Option.mem_def, Option.bind_eq_some_iff, Option.map_eq_some_iff] at h h'
  obtain ⟨_, haction, _, -, rfl⟩ := h
  obtain ⟨_, haction', _, -, rfl⟩ := h'
  rw [← symbol_of_action? (nodup_actions t) haction, symbol_of_action? (nodup_actions t) haction']

theorem successorOn_terminator {action : Action} (h : action.isTerminator = true) :
    successorOn kept action q = .terminal := by
  rw [successorOn, if_pos h]

theorem successorOn_kept {action : Action} (h : action.isTerminator = false) (hq : q ∈ kept) :
    successorOn kept action q = .state ⟨kept.idxOf q⟩ := by
  rw [successorOn, h, idxOf?_eq_some hq]
  rfl

theorem successorOn_dropped {action : Action} (h : action.isTerminator = false) (hq : q ∉ kept) :
    successorOn kept action q = .terminal := by
  rw [successorOn, h, List.idxOf?_eq_none_iff.2 hq]
  rfl

theorem successorOn_eq_state_iff {action : Action} {k : StateId} :
    successorOn kept action q = .state k ↔
      action.isTerminator = false ∧ kept.idxOf? q = some k.index := by
  unfold successorOn
  cases action.isTerminator
  · cases kept.idxOf? q with
    | none => simp
    | some i =>
      obtain ⟨j⟩ := k
      simp
  · simp

/-! ### The states that are kept -/

section Keeping

variable {kept : List Nat} {building building' : Assembly}

variable (t d kept building) in
/-- Some states have been kept, in this order, and no others. -/
structure Keeps : Prop where
  automaton_eq : building.automaton = withRows t kept fun _ => []
  size_eq : building.ids.size = d.size
  ids_eq : ∀ q < d.size, building.ids[q]? = some ((kept.idxOf? q).map StateId.mk)

theorem idxOf?_append_singleton (hq : q ∉ kept) (q' : Nat) :
    (kept ++ [q]).idxOf? q' = if q' = q then some kept.length else kept.idxOf? q' := by
  split
  next heq =>
    rw [heq, idxOf?_eq_some (List.mem_append_right _ (List.mem_singleton_self q)),
      idxOf_append_cons hq]
  next hne =>
    by_cases hq' : q' ∈ kept
    · rw [idxOf?_eq_some (List.mem_append_left _ hq'), idxOf?_eq_some hq',
        List.idxOf_append_of_mem hq']
    · rw [List.idxOf?_eq_none_iff.2 hq', List.idxOf?_eq_none_iff.2]
      simp [hq', hne]

/-- A state that is kept gets the next handle. -/
theorem Keeps.append (h : Keeps t d kept building) (hq : q ∉ kept)
    (hautomaton : building'.automaton = building.automaton.addState.2)
    (hids : building'.ids = building.ids.setIfInBounds q (some ⟨kept.length⟩)) :
    Keeps t d (kept ++ [q]) building' where
  automaton_eq := by
    rw [hautomaton, h.automaton_eq]
    simp only [Automaton.addState, withRows, List.map_append, List.map_singleton,
      List.push_toArray]
  size_eq := by
    rw [hids, Array.size_setIfInBounds]
    exact h.size_eq
  ids_eq q' hq' := by
    rw [hids, Array.getElem?_setIfInBounds, idxOf?_append_singleton hq]
    by_cases heq : q = q'
    · rw [if_pos heq, if_pos heq.symm, if_pos (by rw [h.size_eq, heq]; exact hq')]
      rfl
    · rw [if_neg heq, if_neg (Ne.symm heq)]
      exact h.ids_eq q' hq'

variable (d) in
/-- Is a state kept, apart from the initial one? -/
def isOpen (q : Nat) : Bool := q ≠ d.initial && d.hasTransitions q

/-- A state is kept if something can be taken in it. -/
theorem Keeps.exists_keep (h : Keeps t d kept building) (hq : q < d.size)
    (hfresh : q ≠ d.initial → q ∉ kept) :
    ∃ building', Assembly.keep d building q = .ok building' ∧
      Keeps t d (kept ++ [q].filter (isOpen d)) building' := by
  have hempty : (!(d.edges q).isEmpty) = d.hasTransitions q := by
    rw [Bool.eq_iff_iff, Dfa.hasTransitions_iff, Bool.not_eq_true',
      List.isEmpty_eq_false_iff_exists_mem]
    simp only [Prod.exists, Dfa.mem_edges]
  rw [Assembly.keep, Dfa.transitions_eq hq, ok_bind, hempty]
  show ∃ building', (if isOpen d q = true then _ else _) = _ ∧ _
  cases hopen : isOpen d q with
  | false =>
    rw [List.filter_singleton, hopen, cond_false, List.append_nil]
    exact ⟨building, rfl, h⟩
  | true =>
    have hne : q ≠ d.initial := of_decide_eq_true (Bool.and_eq_true_iff.1 hopen).1
    have hplace : building.automaton.stateCount = kept.length := by
      simp [h.automaton_eq, withRows, Automaton.stateCount]
    rw [List.filter_singleton, hopen, cond_true]
    refine ⟨⟨building.automaton.addState.2,
      building.ids.setIfInBounds q (some ⟨kept.length⟩)⟩, ?_, h.append (hfresh hne) rfl rfl⟩
    rw [if_pos rfl]
    show (writeAt building.ids q (some ⟨building.automaton.stateCount⟩) >>= _) = _
    rw [writeAt_eq (h.size_eq ▸ hq), hplace]
    rfl

theorem Keeps.exists_foldlM_keep (states : List Nat) (h : Keeps t d kept building)
    (hlt : ∀ q ∈ states, q < d.size) (hnodup : states.Nodup)
    (hfresh : ∀ q ∈ states, q ≠ d.initial → q ∉ kept) :
    ∃ building', states.foldlM (Assembly.keep d) building = .ok building' ∧
      Keeps t d (kept ++ states.filter (isOpen d)) building' := by
  induction states generalizing kept building with
  | nil => exact ⟨building, rfl, by rwa [List.filter_nil, List.append_nil]⟩
  | cons q states ih =>
    rw [List.forall_mem_cons] at hlt hfresh
    obtain ⟨hq, hnodup⟩ := List.nodup_cons.1 hnodup
    obtain ⟨next, hkeep, hnext⟩ := h.exists_keep hlt.1 hfresh.1
    obtain ⟨building', hloop, hkeeps⟩ := ih hnext hlt.2 hnodup fun q' hq' hne hmem => by
      rcases List.mem_append.1 hmem with hmem | hmem
      · exact hfresh.2 q' hq' hne hmem
      · cases List.mem_singleton.1 (List.mem_of_mem_filter hmem)
        exact hq hq'
    refine ⟨building', ?_, ?_⟩
    · rw [List.foldlM_cons, hkeep]
      exact hloop
    · rwa [List.append_assoc, ← List.filter_append] at hkeeps

/-- The states that are kept get their handles: the initial one first. -/
theorem exists_states (hd : d.WellFormed) :
    ∃ building, Assembly.states t d = .ok building ∧ Keeps t d d.openStates building := by
  have hfirst : Keeps t d [d.initial]
      ⟨.ofTable t, (Array.replicate d.size none).setIfInBounds d.initial (some ⟨0⟩)⟩ := by
    have hnone : Keeps t d [] ⟨withRows t [] fun _ => [], .replicate d.size none⟩ :=
      ⟨rfl, Array.size_replicate, fun q hq => by simp [hq]⟩
    exact hnone.append List.not_mem_nil rfl rfl
  obtain ⟨building, hloop, hkeeps⟩ := hfirst.exists_foldlM_keep d.states
    (fun q hq => List.mem_range.1 hq) List.nodup_range fun q _ hne hmem =>
      hne (List.mem_singleton.1 hmem)
  refine ⟨building, ?_, hkeeps⟩
  have hsize : d.initial < (Array.replicate d.size (none : Option StateId)).size := by
    rw [Array.size_replicate]
    exact hd.initial_lt
  rw [Assembly.states]
  show (writeAt (.replicate d.size none) d.initial (some (StateId.mk 0)) >>= _) = _
  rw [writeAt_eq hsize]
  exact hloop

end Keeping

/-! ### The transitions of the states -/

section Rows

variable {rows : Nat → Outgoing} {building : Assembly}

/-- The transitions of a state that is not kept do not matter. -/
theorem withRows_update_of_not_mem (hq : q ∉ kept) (out : Outgoing) :
    withRows t kept (Function.update rows q out) = withRows t kept rows := by
  have hrows : kept.map (Function.update rows q out) = kept.map rows :=
    List.map_congr_left fun q' hq' =>
      Function.update_of_ne (fun heq : q' = q => hq (heq ▸ hq')) out rows
  rw [withRows, hrows, withRows]

theorem out_withRows (hq : q ∈ kept) : (withRows t kept rows).out ⟨kept.idxOf q⟩ = rows q := by
  have hrow : (withRows t kept rows).outgoing? ⟨kept.idxOf q⟩ = some (rows q) := by
    show (kept.map rows).toArray[kept.idxOf q]? = _
    rw [List.getElem?_toArray, List.getElem?_map, List.getElem?_idxOf hq]
    rfl
  rw [Automaton.out, hrow, Option.getD_some]

theorem stateCount_withRows : (withRows t kept rows).stateCount = kept.length := by
  simp [withRows, Automaton.stateCount]

/-- Connecting a state that is kept. -/
theorem connected_withRows (hkept : kept.Nodup) (hq : q ∈ kept) :
    (withRows t kept rows).connected ⟨kept.idxOf q⟩ id s =
      withRows t kept (Function.update rows q ((rows q).connect id s)) := by
  rw [Automaton.connected, out_withRows hq, withRows, withRows, hkept.map_update, if_pos hq,
    Array.set!_eq_setIfInBounds, List.setIfInBounds_toArray]

theorem successorOf_eq (h : Keeps t d kept building) (hq : q < d.size) (action : Action) :
    successorOf building.ids action q = .ok (successorOn kept action q) := by
  unfold successorOf successorOn
  split
  next => rfl
  next =>
    rw [readAt_of_getElem? (h.ids_eq q hq), ok_bind]
    cases kept.idxOf? q <;> rfl

/-- A symbol of an action that is new in a state adds its transition behind the others. -/
theorem assembleEdge_eq {edge : Nat × Nat} {action : Action} (h : Keeps t d kept building)
    (hkept : kept.Nodup) (hq : q ∈ kept) (haction : (ofTable t).action? edge.1 = some id)
    (hget : t.get? id = some action) (hlt : edge.2 < d.size) (hnew : id ∉ (rows q).map (·.1)) :
    (ofTable t).assembleEdge t building.ids ⟨kept.idxOf q⟩ (withRows t kept rows) edge =
      .ok (withRows t kept
        (Function.update rows q (rows q ++ [(id, successorOn kept action edge.2)]))) := by
  -- a successor has the handle of a state that is kept, and all of those have been added
  have hexists : (withRows t kept rows).Exists (successorOn kept action edge.2) := by
    cases hs : successorOn kept action edge.2 with
    | terminal => trivial
    | state k =>
      show k.index < _
      rw [stateCount_withRows]
      exact (List.idxOf?_eq_some_iff.1 (successorOn_eq_state_iff.1 hs).2).1
  have hplace : (StateId.mk (kept.idxOf q)).index < (withRows t kept rows).stateCount := by
    rw [stateCount_withRows]
    exact List.idxOf_lt_length_iff.2 hq
  have hget' : t.get id = .ok action := by rw [ActionTable.get, hget]
  have hconnect := Automaton.addTransition_eq_ok_iff.2
    ⟨ActionTable.mem_ids.2 ⟨action, hget⟩, hexists, hplace, rfl, rfl⟩
  rw [assembleEdge, haction]
  dsimp only
  rw [hget', ok_bind, successorOf_eq h hlt, ok_bind, hconnect, ok_bind,
    connected_withRows hkept hq, Outgoing.connect_of_not_mem hnew]
  rfl

/-- The transitions of one state are added one after the other. -/
theorem foldlM_assembleEdge {edges : List (Nat × Nat)} (h : Keeps t d kept building)
    (hkept : kept.Nodup) (hq : q ∈ kept) (hlt : ∀ edge ∈ edges, edge.2 < d.size)
    (hnodup : (((rows q) ++ edges.filterMap (assembledEdge t kept)).map (·.1)).Nodup) :
    edges.foldlM ((ofTable t).assembleEdge t building.ids ⟨kept.idxOf q⟩) (withRows t kept rows) =
      .ok (withRows t kept
        (Function.update rows q (rows q ++ edges.filterMap (assembledEdge t kept)))) := by
  induction edges generalizing rows with
  | nil => rw [List.filterMap_nil, List.append_nil, Function.update_eq_self]; rfl
  | cons edge edges ih =>
    rw [List.forall_mem_cons] at hlt
    cases haction : (ofTable t).action? edge.1 with
    | none =>
      have hnone : assembledEdge t kept edge = none := by rw [assembledEdge, haction]; rfl
      rw [List.filterMap_cons_none hnone] at hnodup ⊢
      rw [List.foldlM_cons, assembleEdge, haction]
      exact ih hlt.2 hnodup
    | some id =>
      obtain ⟨action, hget⟩ := exists_get_of_action? haction
      have hsome : assembledEdge t kept edge = some (id, successorOn kept action edge.2) := by
        rw [assembledEdge, haction, Option.bind_some, hget]
        rfl
      rw [List.filterMap_cons_some hsome] at hnodup ⊢
      have hnew : id ∉ (rows q).map (·.1) := by
        rw [List.map_append, List.map_cons] at hnodup
        intro hmem
        exact (List.disjoint_of_nodup_append hnodup) hmem List.mem_cons_self
      rw [List.foldlM_cons, assembleEdge_eq h hkept hq haction hget hlt.1 hnew, ok_bind, ih hlt.2]
      · rw [Function.update_idem, Function.update_self, List.append_assoc, List.singleton_append]
      · rw [Function.update_self, List.append_assoc, List.singleton_append]
        exact hnodup

/-- A state that is kept gets its transitions. -/
theorem assembleState_eq (hd : d.WellFormed) (h : Keeps t d kept building) (hkept : kept.Nodup)
    (hq : q < d.size) (hrow : rows q = []) :
    (ofTable t).assembleState t building.ids d (withRows t kept rows) q =
      .ok (withRows t kept (Function.update rows q (assembledOut t d kept q))) := by
  rw [assembleState, readAt_of_getElem? (h.ids_eq q hq), ok_bind]
  by_cases hmem : q ∈ kept
  · have hlt : ∀ edge ∈ d.edges q, edge.2 < d.size := fun edge hedge =>
      hd.next_lt (Dfa.mem_edges.1 hedge)
    have hnodup : ((rows q ++ (d.edges q).filterMap (assembledEdge t kept)).map (·.1)).Nodup := by
      rw [hrow, List.nil_append]
      exact nodup_assembledOut
    have hedges := foldlM_assembleEdge h hkept hmem hlt hnodup
    rw [idxOf?_eq_some hmem]
    dsimp only [Option.map_some]
    rw [Dfa.transitions_eq hq, ok_bind, hedges, hrow, List.nil_append, assembledOut]
  · rw [List.idxOf?_eq_none_iff.2 hmem, withRows_update_of_not_mem hmem]
    rfl

/-- Some states get their transitions one after the other. -/
theorem foldlM_assembleState {states : List Nat} (hd : d.WellFormed) (h : Keeps t d kept building)
    (hkept : kept.Nodup) (hlt : ∀ q ∈ states, q < d.size) (hnodup : states.Nodup)
    (hrows : ∀ q ∈ states, rows q = []) :
    states.foldlM ((ofTable t).assembleState t building.ids d) (withRows t kept rows) =
      .ok (withRows t kept fun q => if q ∈ states then assembledOut t d kept q else rows q) := by
  induction states generalizing rows with
  | nil => rfl
  | cons q states ih =>
    rw [List.forall_mem_cons] at hlt hrows
    obtain ⟨hq, hnodup⟩ := List.nodup_cons.1 hnodup
    rw [List.foldlM_cons, assembleState_eq hd h hkept hlt.1 hrows.1, ok_bind, ih hlt.2 hnodup]
    · refine congrArg (fun rows => Except.ok (withRows t kept rows)) (funext fun q' => ?_)
      by_cases heq : q' = q
      · subst heq
        simp
      · simp [heq]
    · intro q' hq'
      rw [Function.update_of_ne (fun heq : q' = q => hq (heq ▸ hq'))]
      exact hrows.2 q' hq'

/-- All states that are kept get their transitions. -/
theorem assembleStates_eq (hd : d.WellFormed) (h : Keeps t d d.openStates building) :
    d.states.foldlM ((ofTable t).assembleState t building.ids d)
      (withRows t d.openStates fun _ => []) = .ok (assembled t d) := by
  have hlt : ∀ q ∈ d.states, q < d.size := fun q hq => List.mem_range.1 hq
  rw [foldlM_assembleState hd h Dfa.nodup_openStates hlt List.nodup_range fun _ _ => rfl]
  have hrows : d.openStates.map (fun q =>
      if q ∈ d.states then assembledOut t d d.openStates q else []) =
      d.openStates.map (assembledOut t d d.openStates) := by
    refine List.map_congr_left fun q hq => if_pos (List.mem_range.2 ?_)
    rcases Dfa.mem_openStates.1 hq with rfl | ⟨s, q', hq'⟩
    · exact hd.initial_lt
    · exact Dfa.lt_size_of_next hq'
  rw [withRows, hrows]
  rfl

end Rows

end Alphabet
end CallChain
