import CallChain.Automaton.Basic
import CallChain.Discovery

/-!
# Canonical state numbers

States are numbered in the order in which a breadth-first search from the initial state meets them
when it takes the actions of each state in canonical order. The numbers depend only on the shape of
the automaton: neither the order in which states were added nor the order in which transitions were
connected shows in them. States that cannot be reached have no number.
-/

namespace CallChain

/-- The reachable states in the order of their numbers. -/
structure Numbering where
  order : List StateId
deriving DecidableEq, Repr

namespace Numbering

variable (n : Numbering)

def size : Nat := n.order.length

def isEmpty : Bool := n.order.isEmpty

/-- The number of a state; none if it cannot be reached. -/
def number? (state : StateId) : Option Nat := n.order.idxOf? state

def number (state : StateId) : Except Fault Nat :=
  match n.number? state with
  | some k => .ok k
  | none => .error (.unnumberedState state)

end Numbering

namespace Automaton

variable (a : Automaton)

/-- The states that a state leads to, by canonical order of the actions. -/
def successors (state : StateId) : Except Fault (List StateId) := do
  let targets := (← a.transitions state).filterMap (·.successor.state?)
  let _ ← checkIndices a.stateCount (targets.map (·.index))
  return targets

/-- The canonical numbers. A transition into a missing state is a fault. -/
def numbering : Except Fault Numbering := do
  checkIndex a.stateCount a.initial.index
  return ⟨← discoverM a.successors (a.stateCount + 1) [a.initial]⟩

/-- A successor under canonical numbers. -/
def renumber (n : Numbering) : Successor → Except Fault Successor
  | .terminal => .ok .terminal
  | .state target => (n.number target).map fun k => .state ⟨k⟩

/-- The transitions of a state under canonical numbers, in canonical order. -/
def renumberedOutgoing (n : Numbering) (state : StateId) : Except Fault Outgoing := do
  (← a.transitions state).mapM fun t => return (t.action, ← renumber n t.successor)

/-- The automaton with its canonical numbers as state handles. Unreachable states are dropped. -/
def canonicalize : Except Fault Automaton := do
  let n ← a.numbering
  let states ← n.order.mapM (a.renumberedOutgoing n)
  return ⟨a.table, states.toArray, ⟨0⟩⟩

end Automaton
end CallChain
