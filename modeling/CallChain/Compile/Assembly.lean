import CallChain.Access
import CallChain.Alphabet
import CallChain.Automaton.Numbering
import CallChain.Finite.Access

/-!
# Assembling a chain automaton

The states of a saturated automaton become the states of a chain automaton. A terminator ends the
chain, and so does an action that leads to a state where nothing can be taken: such states are
dropped, except the initial one. The states get their canonical numbers.
-/

namespace CallChain

/-- A chain automaton under assembly. -/
structure Assembly where
  automaton : Automaton
  /-- The handles of the states that are kept, by state. -/
  ids : Array (Option StateId)

namespace Assembly

variable (t : ActionTable) (d : Dfa)

/-- Keeps a state where something can be taken; the initial one has been kept before. -/
def keep (s : Assembly) (state : Nat) : Except Fault Assembly := do
  if state ≠ d.initial && !(← d.transitions state).isEmpty then
    let (id, automaton) := s.automaton.addState
    return ⟨automaton, ← writeAt s.ids state (some id)⟩
  else
    return s

/-- The states that are kept, without transitions. -/
def states : Except Fault Assembly := do
  let automaton := Automaton.ofTable t
  let ids ← writeAt (.replicate d.size none) d.initial (some automaton.initial)
  d.states.foldlM (keep d) ⟨automaton, ids⟩

end Assembly

namespace Alphabet

variable (a : Alphabet) (t : ActionTable) (ids : Array (Option StateId))

/-- The successor on an action that leads to a state. -/
def successorOf (action : Action) (target : Nat) : Except Fault Successor :=
  if action.isTerminator then
    .ok .terminal
  else do
    match ← readAt ids target with
    | some id => return .state id
    | none => return .terminal

/-- Adds the transition on a symbol; symbols that are no actions have none. -/
def assembleEdge (source : StateId) (automaton : Automaton) (edge : Nat × Nat) :
    Except Fault Automaton :=
  match a.action? edge.1 with
  | none => .ok automaton
  | some id => do
    let action ← t.get id
    let successor ← successorOf ids action edge.2
    return (← automaton.addTransition source id successor).2

/-- Adds the transitions of a state that is kept. -/
def assembleState (d : Dfa) (automaton : Automaton) (state : Nat) : Except Fault Automaton := do
  match ← readAt ids state with
  | none => return automaton
  | some source => (← d.transitions state).foldlM (a.assembleEdge t ids source) automaton

/-- The chain automaton, with canonical state numbers. -/
def assemble (d : Dfa) : Except Fault Automaton := do
  let kept ← Assembly.states t d
  let automaton ← d.states.foldlM (a.assembleState t kept.ids d) kept.automaton
  automaton.canonicalize

end Alphabet
end CallChain
