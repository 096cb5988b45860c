import CallChain.Finite.Nfa

/-!
# Determinization

The states of the deterministic automaton of a fragment are the sets of nodes that the words so far
can have reached, closed under silent steps. Only sets that some word reaches are made.

`Nfa.determinized` makes the same automaton with every look-up checked.
-/

namespace CallChain.Nfa

variable (n : Nfa)

/-- The set after one more symbol; none if nothing is left. -/
def stepSet (nodes : List Nat) (symbol : Nat) : Option (List Nat) :=
  let moved := n.move nodes symbol
  if moved.isEmpty then none else some (n.closure moved)

/-- The deterministic automaton of a fragment. -/
def determinize (f : Fragment) : Dfa :=
  Dfa.ofSteps n.alphabet n.stepSet (·.contains f.exit) (Nat.pow 2 n.size) (n.closure [f.entry])

end CallChain.Nfa
