import CallChain.Action.Table
import CallChain.Fault

/-!
# Chain automata

A chain automaton says which actions may be taken after any sequence of actions. Each state holds
at most one transition per action, in the order in which the actions were first connected; the
order shown to callers is the canonical order of the actions.

Operations that take handles check them first and answer a `Fault` for a handle from elsewhere. An
operation that fails answers no automaton, so the one it was given stays as it is.
-/

namespace CallChain

/-- One step of an automaton. -/
structure Transition where
  source : StateId
  action : ActionId
  successor : Successor
deriving DecidableEq, Repr

/-- The transitions of a state: each action at most once. -/
abbrev Outgoing := List (ActionId × Successor)

namespace Outgoing

def find? (out : Outgoing) (action : ActionId) : Option Successor := out.lookup action

/-- Connects an action; one that is connected already keeps its place. -/
def connect (action : ActionId) (successor : Successor) : Outgoing → Outgoing
  | [] => [(action, successor)]
  | (a, s) :: out =>
    if a = action then (action, successor) :: out else (a, s) :: connect action successor out

/-- The action that is connected has the new successor, and the others keep theirs. -/
theorem find?_connect (out : Outgoing) (action : ActionId) (successor : Successor) (b : ActionId) :
    (out.connect action successor).find? b =
      if b = action then some successor else out.find? b := by
  induction out with
  | nil => simp only [connect, find?, List.lookup_cons]; grind
  | cons entry out ih =>
    obtain ⟨a, s⟩ := entry
    unfold find? at ih ⊢
    unfold connect
    split <;> simp only [List.lookup_cons] <;> grind

end Outgoing

structure Automaton where
  table : ActionTable
  states : Array Outgoing
  initial : StateId

namespace Automaton

/-- An automaton that holds only its initial state. -/
def ofTable (table : ActionTable) : Automaton := ⟨table, #[[]], ⟨0⟩⟩

variable (a : Automaton)

def stateCount : Nat := a.states.size

/-- Handles of all states. -/
def stateIds : List StateId := (List.range a.stateCount).map StateId.mk

def isInitial (state : StateId) : Bool := state = a.initial

/-! ### Checked access -/

def outgoing? (state : StateId) : Option Outgoing := a.states[state.index]?

def outgoing (state : StateId) : Except Fault Outgoing :=
  match a.outgoing? state with
  | some out => .ok out
  | none => .error (.unknownState state a.stateCount)

end Automaton

/-- The action behind a handle of the table. -/
def ActionTable.get (t : ActionTable) (id : ActionId) : Except Fault Action :=
  match t.get? id with
  | some action => .ok action
  | none => .error (.unknownAction id t.size)

/-- What an action is called where it is shown. -/
def ActionTable.label (t : ActionTable) (id : ActionId) : Except Fault String :=
  (t.get id).map t.labelOf

namespace Automaton

variable (a : Automaton)

/-! ### Building -/

/-- A further state without transitions. -/
def addState : StateId × Automaton :=
  (⟨a.stateCount⟩, { a with states := a.states.push [] })

/-- Is this the handle of one of the states, or the end of the chain? -/
def checkSuccessor : Successor → Except Fault Unit
  | .state target => (a.outgoing target).map fun _ => ()
  | .terminal => .ok ()

/-- Connects `source` on `action`, and answers the successor this replaced. The action is checked
first, the target next, the source last. -/
def addTransition (source : StateId) (action : ActionId) (successor : Successor) :
    Except Fault (Option Successor × Automaton) := do
  let _ ← a.table.get action
  a.checkSuccessor successor
  let out ← a.outgoing source
  return (out.find? action,
    { a with states := a.states.set! source.index (out.connect action successor) })

/-! ### Looking -/

def successor? (state : StateId) (action : ActionId) : Except Fault (Option Successor) :=
  (a.outgoing state).map (·.find? action)

def hasTransitions (state : StateId) : Except Fault Bool :=
  (a.outgoing state).map fun out => !out.isEmpty

/-- May a transition stand before another one? -/
def comesFirst (s t : Transition) : Except Fault Bool :=
  (a.table.compared s.action t.action).map (·.isLE)

/-- The transitions of a state, in canonical order of their actions. -/
def transitions (state : StateId) : Except Fault (List Transition) := do
  let out ← a.outgoing state
  sortByM a.comesFirst (out.map fun (action, successor) => ⟨state, action, successor⟩)

/-- May the action of a transition be repeated at once where it leads, without leaving that state?
Only then can it be offered as one variadic method. Terminators and actions that do not allow it
never are. -/
def isVarargsApplicable (t : Transition) : Except Fault Bool :=
  match t.successor with
  | .terminal => .ok false
  | .state target => do
    let action ← a.table.get t.action
    if action.isTerminator || !action.allowsVarargs then
      return false
    let next ← a.successor? target t.action
    return next = some (.state target)

end Automaton
end CallChain
