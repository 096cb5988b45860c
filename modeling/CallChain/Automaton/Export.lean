import CallChain.Automaton.Numbering
import CallChain.Json

/-!
# Automata for code emitters

An export lists the actions in canonical order and the reachable states by their canonical numbers.
Transitions name an action by its index in that list and a successor by its number; a transition
that ends the chain has no successor.
-/

namespace CallChain

structure ExportedTransition where
  /-- Index into the list of actions. -/
  action : Nat
  /-- None where the action ends the chain. -/
  successor : Option Nat
  varargs : Bool
deriving DecidableEq, Repr

structure ExportedState where
  id : Nat
  transitions : List ExportedTransition
deriving DecidableEq, Repr

structure ExportedAction where
  name : String
  method : String
  params : List String
  returns : String
  isGlobal : Bool
  isTerminator : Bool
deriving DecidableEq, Repr

structure ExportedAutomaton where
  initialState : Nat
  actions : List ExportedAction
  states : List ExportedState
deriving DecidableEq, Repr

/-! ### From an automaton -/

def Action.exported (a : Action) : ExportedAction where
  name := a.name
  method := a.operation
  params := a.params
  returns := a.returns
  isGlobal := a.isGlobal
  isTerminator := a.isTerminator

/-- The canonical number of a successor. -/
def Numbering.successor (n : Numbering) : Successor → Except Fault (Option Nat)
  | .terminal => .ok none
  | .state target => (n.number target).map some

namespace Automaton

variable (a : Automaton)

/-- The place of an action in the canonical order. -/
def actionIndex (id : ActionId) : Except Fault Nat :=
  match a.table.order.idxOf? id with
  | some k => .ok k
  | none => .error (.unknownAction id a.table.size)

def exportTransition (n : Numbering) (t : Transition) : Except Fault ExportedTransition := do
  let action ← a.actionIndex t.action
  let successor ← n.successor t.successor
  return ⟨action, successor, ← a.isVarargsApplicable t⟩

def exportState (n : Numbering) (entry : StateId × Nat) : Except Fault ExportedState := do
  let transitions ← a.transitions entry.1
  return ⟨entry.2, ← transitions.mapM (a.exportTransition n)⟩

def exported : Except Fault ExportedAutomaton := do
  let n ← a.numbering
  let actions ← a.table.order.mapM fun id => (a.table.get id).map Action.exported
  return ⟨0, actions, ← n.order.zipIdx.mapM (a.exportState n)⟩

end Automaton

/-! ### As JSON -/

def ExportedTransition.toJson (t : ExportedTransition) : Json :=
  .object [("action", .nat t.action),
    ("successor", match t.successor with | some k => .nat k | none => .null),
    ("varargs", .bool t.varargs)]

def ExportedState.toJson (s : ExportedState) : Json :=
  .object [("id", .nat s.id), ("transitions", .list (s.transitions.map (·.toJson)))]

def ExportedAction.toJson (a : ExportedAction) : Json :=
  .object [("name", .text a.name), ("method", .text a.method),
    ("params", .list (a.params.map .text)), ("returns", .text a.returns),
    ("global", .bool a.isGlobal), ("terminator", .bool a.isTerminator)]

def ExportedAutomaton.toJson (e : ExportedAutomaton) : Json :=
  .object [("initialState", .nat e.initialState), ("actions", .list (e.actions.map (·.toJson))),
    ("states", .list (e.states.map (·.toJson)))]

end CallChain
