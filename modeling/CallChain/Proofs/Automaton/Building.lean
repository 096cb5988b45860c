import CallChain.Proofs.Automaton.Chains

/-!
# Automata that are built step by step

An automaton begins with its initial state alone; states are added, and transitions are connected
or replaced. Every operation that answers an automaton keeps it well-formed.

* `addTransition_eq_ok_iff`: what connecting checks, and what it changes.
* `Built.wellFormed`: what is built is well-formed.
-/

namespace CallChain

/-! ### Connecting actions -/

namespace Outgoing

variable {out : Outgoing} {id : ActionId} {s : Successor}

theorem mem_connect {e : ActionId × Successor} (h : e ∈ out.connect id s) :
    e = (id, s) ∨ e ∈ out := by
  induction out with
  | nil => exact .inl (List.mem_singleton.1 h)
  | cons entry out ih =>
    obtain ⟨action, old⟩ := entry
    unfold connect at h
    split at h
    · exact (List.mem_cons.1 h).imp_right (List.mem_cons_of_mem _)
    · rcases List.mem_cons.1 h with rfl | h
      · exact .inr List.mem_cons_self
      · exact (ih h).imp_right (List.mem_cons_of_mem _)

theorem nodup_connect (h : (out.map (·.1)).Nodup) : ((out.connect id s).map (·.1)).Nodup := by
  induction out with
  | nil => exact List.nodup_singleton id
  | cons entry out ih =>
    obtain ⟨action, old⟩ := entry
    rw [List.map_cons, List.nodup_cons] at h
    unfold connect
    split
    · next heq =>
      rw [List.map_cons, List.nodup_cons]
      exact ⟨heq ▸ h.1, h.2⟩
    · next hne =>
      rw [List.map_cons, List.nodup_cons]
      refine ⟨fun hmem => ?_, ih h.2⟩
      obtain ⟨e, he, heq⟩ := List.mem_map.1 hmem
      rcases mem_connect he with rfl | he
      · exact hne heq.symm
      · exact h.1 (List.mem_map.2 ⟨e, he, heq⟩)

/-- A new action comes last. -/
theorem connect_of_not_mem (h : id ∉ out.map (·.1)) : out.connect id s = out ++ [(id, s)] := by
  induction out with
  | nil => rfl
  | cons entry out ih =>
    rw [List.map_cons, List.mem_cons, not_or] at h
    rw [connect, if_neg (Ne.symm h.1), ih h.2]
    rfl

end Outgoing

namespace Automaton

variable {a a' : Automaton} {source state : StateId} {id : ActionId} {s : Successor}
  {replaced : Option Successor}

/-! ### One step -/

theorem out_ofTable (t : ActionTable) (state : StateId) : (ofTable t).out state = [] := by
  rw [out, outgoing?]
  cases state.index <;> simp [ofTable]

theorem wellFormed_ofTable (t : ActionTable) : (ofTable t).WellFormed where
  initial := Nat.zero_lt_one
  nodup state := by
    rw [out_ofTable]
    exact List.nodup_nil
  action_mem state e he := by
    rw [out_ofTable] at he
    cases he
  target state id target he := by
    rw [out_ofTable] at he
    cases he

theorem out_addState (state : StateId) : a.addState.2.out state = a.out state := by
  rw [out, out, outgoing?, outgoing?]
  show ((a.states.push [])[state.index]?).getD [] = _
  rw [Array.getElem?_push]
  split
  · next heq => rw [Array.getElem?_eq_none (by omega)]; rfl
  · rfl

theorem wellFormed_addState (h : a.WellFormed) : a.addState.2.WellFormed where
  initial := by
    show _ < (a.states.push []).size
    rw [Array.size_push]
    exact Nat.lt_succ_of_lt h.initial
  nodup state := by
    rw [out_addState]
    exact h.nodup state
  action_mem state e he := by
    rw [out_addState] at he
    exact h.action_mem state e he
  target state id target he := by
    rw [out_addState] at he
    show _ < (a.states.push []).size
    rw [Array.size_push]
    exact Nat.lt_succ_of_lt (h.target state id target he)

/-- A handle that is no state's is a fault. -/
theorem outgoing_eq_error (h : a.stateCount ≤ state.index) :
    a.outgoing state = .error (.unknownState state a.stateCount) := by
  have hnone : a.outgoing? state = none := Array.getElem?_eq_none h
  rw [outgoing, hnone]

theorem checkSuccessor_eq_ok_iff : a.checkSuccessor s = .ok () ↔ a.Exists s := by
  cases s with
  | terminal => exact iff_of_true rfl trivial
  | state target =>
    show (a.outgoing target).map _ = _ ↔ target.index < a.stateCount
    rcases Nat.lt_or_ge target.index a.stateCount with hlt | hge
    · rw [outgoing_eq hlt]
      exact iff_of_true rfl hlt
    · rw [outgoing_eq_error hge]
      exact iff_of_false (by simp [Except.map]) (Nat.not_lt.2 hge)

variable (a source id s) in
/-- The automaton with an action of a state connected. -/
def connected : Automaton :=
  { a with states := a.states.set! source.index ((a.out source).connect id s) }

/-- Connecting checks the handles, and changes the transitions of the source only. -/
theorem addTransition_eq_ok_iff : a.addTransition source id s = .ok (replaced, a') ↔
    id ∈ a.table.ids ∧ a.Exists s ∧ source.index < a.stateCount ∧
      replaced = a.next source id ∧ a' = a.connected source id s := by
  rw [ActionTable.mem_ids, ← checkSuccessor_eq_ok_iff, addTransition, ActionTable.get]
  cases hget : a.table.get? id with
  | none => simp [bind, Except.bind]
  | some action =>
    cases hcheck : a.checkSuccessor s with
    | error e => simp [bind, Except.bind]
    | ok _ =>
      rcases Nat.lt_or_ge source.index a.stateCount with hlt | hge
      · simp only [outgoing_eq hlt, hlt, bind, Except.bind, pure, Except.pure, true_and]
        simp [connected, next, eq_comm]
      · simp [outgoing_eq_error hge, bind, Except.bind, Nat.not_lt.2 hge]

@[simp] theorem stateCount_connected : (a.connected source id s).stateCount = a.stateCount :=
  Array.size_setIfInBounds

theorem out_connected (hsource : source.index < a.stateCount) :
    (a.connected source id s).out state =
      if state = source then (a.out source).connect id s else a.out state := by
  rw [out, outgoing?]
  show ((a.states.setIfInBounds source.index _)[state.index]?).getD [] = _
  by_cases heq : state = source
  · rw [if_pos heq, heq, Array.getElem?_setIfInBounds_self_of_lt hsource]
    rfl
  · have hne : source.index ≠ state.index := by
      intro hindex
      cases state
      cases source
      exact heq (congrArg StateId.mk hindex.symm)
    rw [if_neg heq, Array.getElem?_setIfInBounds_ne hne]
    rfl

theorem wellFormed_connected (h : a.WellFormed) (hid : id ∈ a.table.ids) (hs : a.Exists s)
    (hsource : source.index < a.stateCount) : (a.connected source id s).WellFormed where
  initial := by
    rw [stateCount_connected]
    exact h.initial
  nodup state := by
    rw [out_connected hsource]
    split
    · exact Outgoing.nodup_connect (h.nodup source)
    · exact h.nodup state
  action_mem state e he := by
    rw [out_connected hsource] at he
    split at he
    · rcases Outgoing.mem_connect he with rfl | he
      · exact hid
      · exact h.action_mem source e he
    · exact h.action_mem state e he
  target state id' target he := by
    rw [stateCount_connected]
    rw [out_connected hsource] at he
    split at he
    · rcases Outgoing.mem_connect he with heq | he
      · cases heq
        exact hs
      · exact h.target source id' target he
    · exact h.target state id' target he

/-! ### Building -/

/-- The automata that a sequence of operations makes. -/
inductive Built : Automaton → Prop where
  | ofTable (t : ActionTable) : Built (.ofTable t)
  | addState {a : Automaton} (h : Built a) : Built a.addState.2
  | addTransition {a a' : Automaton} {source : StateId} {id : ActionId} {s : Successor}
      {replaced : Option Successor} (h : Built a)
      (hok : a.addTransition source id s = .ok (replaced, a')) : Built a'

theorem Built.wellFormed (h : a.Built) : a.WellFormed := by
  induction h with
  | ofTable t => exact wellFormed_ofTable t
  | addState _ ih => exact wellFormed_addState ih
  | addTransition _ hok ih =>
    obtain ⟨hid, hs, hsource, -, rfl⟩ := addTransition_eq_ok_iff.1 hok
    exact wellFormed_connected ih hid hs hsource

/-- Connects some transitions, one after the other. -/
def connectAll (a : Automaton) (transitions : List Transition) : Except Fault Automaton :=
  transitions.foldlM (fun a t => (a.addTransition t.source t.action t.successor).map (·.2)) a

theorem Built.connectAll (h : a.Built) (transitions : List Transition)
    (hok : a.connectAll transitions = .ok a') : a'.Built := by
  induction transitions generalizing a with
  | nil =>
    cases hok
    exact h
  | cons t transitions ih =>
    rw [Automaton.connectAll, List.foldlM_cons] at hok
    obtain ⟨b, hb, hok⟩ := bind_eq_ok.1 hok
    cases hstep : a.addTransition t.source t.action t.successor with
    | error e =>
      rw [hstep] at hb
      cases hb
    | ok result =>
      rw [hstep] at hb
      cases hb
      exact ih (h.addTransition hstep) hok

end Automaton
end CallChain
