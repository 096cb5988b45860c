import CallChain.Alphabet
import CallChain.Finite.Checked

/-!
# Saturating an automaton

What the flags of actions mean, on an automaton without anchors. Every state accepts, so its words
are closed under prefixes. A global action that a state does not take otherwise stays in that state,
and a terminator leads back to its own state, since nothing follows it.

The automaton is minimized first, so that a state from which no word is accepted does not begin to
accept, and once more at the end, since states that differed only behind a terminator are equal now.
-/

namespace CallChain

namespace ActionTable

/-- The actions that end a chain, by declaration. -/
def terminators (t : ActionTable) : List ActionId := t.ids.filter (t.holds (·.isTerminator))

end ActionTable

namespace Alphabet

variable (a : Alphabet)

/-- Gives a state the loops of global actions, and leads its terminators back. -/
def loopState (globals terminators : List Nat) (d : Dfa) (state : Nat) : Except Fault Dfa := do
  let d ← globals.foldlM (Dfa.retarget (· <|> some state) state) d
  terminators.foldlM (Dfa.retarget (·.map fun _ => state) state) d

/-- The saturated automaton. -/
def saturated (t : ActionTable) (d : Dfa) : Except Fault Dfa := do
  let d := (← d.minimized).acceptAll
  let symbols ← a.symbolTable t.size
  let globals ← t.globals.mapM fun id => readAt symbols id.index
  let terminators ← t.terminators.mapM fun id => readAt symbols id.index
  let d ← d.states.foldlM (loopState globals terminators) d
  d.minimized

end Alphabet
end CallChain
