/-!
# States of a chain automaton

States are numbered densely from zero. Every state is a valid place to stop, so there is no
accepting flag; what a transition leads to is either another state or the end of the chain.
-/

namespace CallChain

/-- Handle to a state of an automaton. -/
structure StateId where
  index : Nat
deriving DecidableEq, Repr

instance : ToString StateId := ⟨fun id => "S" ++ toString id.index⟩

/-- Where taking an action leads. -/
inductive Successor where
  | state (id : StateId)
  /-- The action ends the chain. -/
  | terminal
deriving DecidableEq, Repr

def Successor.state? : Successor → Option StateId
  | state id => some id
  | terminal => none

end CallChain
