import CallChain.Automaton.Numbering
import CallChain.Proofs.ActionTable

/-!
# Chains of an automaton

`Automaton.chain` follows a sequence of actions, with the checks that looking up a successor makes.
In a well-formed automaton no check fails, and the successors are those that `Automaton.next` finds.

* `chain_eq`: following a chain meets no fault.
* `mem_offers_iff`: what is offered is what can be taken.
* `isVarargsApplicable_eq_isRepeatable`: which transitions are marked as variadic.
-/

namespace CallChain

/-! ### Outgoing transitions -/

namespace Outgoing

variable {id : ActionId}

theorem find?_map (f : Successor → Successor) (out : Outgoing) :
    Outgoing.find? (out.map fun e => (e.1, f e.2)) id = (out.find? id).map f := by
  induction out with
  | nil => rfl
  | cons entry out ih =>
    unfold find? at ih ⊢
    rw [List.map_cons, List.lookup_cons, List.lookup_cons]
    split
    · rfl
    · exact ih

end Outgoing

/-- A successor with another handle. -/
def Successor.rename (f : StateId → StateId) : Successor → Successor
  | state id => state (f id)
  | terminal => terminal

namespace Automaton

variable (a : Automaton)

/-- Where an action leads; nothing is offered behind the end of the chain. -/
def take (s : Successor) (action : ActionId) : Except Fault (Option Successor) :=
  match s with
  | .state state => a.successor? state action
  | .terminal => .ok none

/-- Where a sequence of actions leads. -/
def chain (s : Successor) : List ActionId → Except Fault (Option Successor)
  | [] => .ok (some s)
  | action :: actions => do
    match ← a.take s action with
    | some s => chain s actions
    | none => return none

/-- The actions that may be taken next. -/
def offers (s : Successor) : Set ActionId := {id | ∃ s', a.take s id = .ok (some s')}

/-! ### Well-formed automata -/

/-- The transitions of a state, none for a missing one. -/
def out (state : StateId) : Outgoing := (a.outgoing? state).getD []

def next (state : StateId) (action : ActionId) : Option Successor := (a.out state).find? action

/-- Each state connects actions of the table, each at most once, with states that exist. -/
structure WellFormed : Prop where
  initial : a.initial.index < a.stateCount
  nodup : ∀ state, ((a.out state).map (·.1)).Nodup
  action_mem : ∀ state, ∀ e ∈ a.out state, e.1 ∈ a.table.ids
  target : ∀ state id target, (id, .state target) ∈ a.out state → target.index < a.stateCount

/-- A successor that is no missing state. -/
def Exists : Successor → Prop
  | .state state => state.index < a.stateCount
  | .terminal => True

variable {a} {b : Automaton} {state target : StateId} {id : ActionId} {s : Successor}

theorem outgoing_eq (h : state.index < a.stateCount) : a.outgoing state = .ok (a.out state) := by
  have hsome : a.outgoing? state = some a.states[state.index] := Array.getElem?_eq_getElem h
  rw [outgoing, out, hsome]
  rfl

theorem successor?_eq (h : state.index < a.stateCount) (id : ActionId) :
    a.successor? state id = .ok (a.next state id) := by
  rw [successor?, outgoing_eq h]
  rfl

namespace WellFormed

variable (h : a.WellFormed)

include h

theorem next_eq_some_iff : a.next state id = some s ↔ (id, s) ∈ a.out state :=
  lookup_eq_some_iff_mem (h.nodup state)

theorem exists_of_next (hnext : a.next state id = some s) : a.Exists s := by
  cases s with
  | state target => exact h.target state id target (h.next_eq_some_iff.1 hnext)
  | terminal => trivial

theorem mem_ids_of_next (hnext : a.next state id = some s) : id ∈ a.table.ids :=
  h.action_mem state _ (h.next_eq_some_iff.1 hnext)

end WellFormed

/-- Where an action leads, without checks. -/
def taken (a : Automaton) (s : Successor) (id : ActionId) : Option Successor :=
  match s with
  | .state state => a.next state id
  | .terminal => none

theorem take_eq (hs : a.Exists s) (id : ActionId) : a.take s id = .ok (a.taken s id) := by
  cases s with
  | state state => exact successor?_eq hs id
  | terminal => rfl

/-- Following a chain meets no fault. -/
theorem chain_eq (h : a.WellFormed) (hs : a.Exists s) (actions : List ActionId) :
    a.chain s actions = .ok (actions.foldlM a.taken s) := by
  induction actions generalizing s with
  | nil => rfl
  | cons id actions ih =>
    rw [chain, take_eq hs, List.foldlM_cons]
    cases htaken : a.taken s id with
    | none => rfl
    | some s' =>
      refine ih ?_
      cases s with
      | state state => exact h.exists_of_next htaken
      | terminal => cases htaken

theorem mem_offers_iff (hs : a.Exists s) : id ∈ a.offers s ↔ ∃ s', a.taken s id = some s' := by
  show (∃ s', a.take s id = .ok (some s')) ↔ _
  rw [take_eq hs]
  simp

/-! ### Repeated actions -/

/-- May the action of a transition be repeated where it leads? -/
def isRepeatable (a : Automaton) (step : Transition) : Bool :=
  match step.successor with
  | .terminal => false
  | .state target =>
    !a.table.holds (·.isTerminator) step.action && a.table.holds (·.allowsVarargs) step.action &&
      a.next target step.action = some (.state target)

theorem isRepeatable_iff {step : Transition} : a.isRepeatable step = true ↔
    a.table.holds (·.isTerminator) step.action = false ∧
      a.table.holds (·.allowsVarargs) step.action = true ∧
      ∃ target, step.successor = .state target ∧
        a.next target step.action = some (.state target) := by
  cases hs : step.successor <;> simp [isRepeatable, hs, and_assoc]

/-- The mark of a transition is found without a fault. -/
theorem isVarargsApplicable_eq_isRepeatable (h : a.WellFormed) {step : Transition}
    (hstep : a.next step.source step.action = some step.successor) :
    a.isVarargsApplicable step = .ok (a.isRepeatable step) := by
  obtain ⟨action, hget⟩ := ActionTable.mem_ids.1 (h.mem_ids_of_next hstep)
  cases hs : step.successor with
  | terminal => rw [isVarargsApplicable, isRepeatable, hs]
  | state target =>
    rw [hs] at hstep
    have htarget : target.index < a.stateCount := h.exists_of_next hstep
    simp only [isVarargsApplicable, isRepeatable, hs, ActionTable.get, hget, ActionTable.holds,
      Option.any_some, successor?_eq htarget, bind, Except.bind, pure, Except.pure]
    cases action.isTerminator <;> cases action.allowsVarargs <;> rfl

end Automaton
end CallChain
