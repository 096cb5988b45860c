import CallChain.Alphabet
import CallChain.Finite.Checked

/-!
# Closing a scope

The words of a scope begin with exactly one start anchor. Closing resolves the anchors:

* the scope begins after the start anchor;
* where the end anchor is possible, nothing else is;
* an inner anchor is skipped as if it were not there, except at the very beginning, where it is not
  allowed;
* words may end everywhere.

The result has no transition on an anchor.
-/

namespace CallChain

namespace Alphabet

variable (a : Alphabet)

/-! ### The words of a scope -/

/-- The words that begin with a start anchor and hold no other. -/
def scopeLanguage : Except Fault Dfa := do
  let start := a.anchorSymbol .start
  let (inside, d) := (Dfa.nothing a.size).addState true
  let d ← d.setTransition d.initial start (some inside)
  (d.symbols.filter (· ≠ start)).foldlM
    (fun d symbol => d.setTransition inside symbol (some inside)) d

/-- Where the scope of an automaton begins. -/
def scopeStart (d : Dfa) : Except Fault (Option Nat) :=
  d.transition d.initial (a.anchorSymbol .start)

/-! ### Closing -/

/-- Adds a step of the closed scope for a transition to the node `node`. The inner anchor is skipped
if `skipsInner` says so, and no other anchor leads anywhere. -/
def closeEdge (node : Nat) (skipsInner : Bool) (n : Nfa) (edge : Nat × Nat) : Except Fault Nfa := do
  if !(← a.isAnchor edge.1) then
    n.connected node (.single edge.1) edge.2
  else if edge.1 = a.anchorSymbol .inner && skipsInner then
    n.connectedSilent node edge.2
  else
    return n

/-- Adds the steps of a state of the closed scope to the node `node`; `exit` is the node where words
end. Where the end anchor is possible there are no others. -/
def closeState (d : Dfa) (exit : Nat) (skipsInner : Bool) (n : Nfa) (node state : Nat) :
    Except Fault Nfa := do
  let n ← n.connectedSilent node exit
  if (← d.transition state (a.anchorSymbol .stop)).isSome then
    return n
  else
    (← d.transitions state).foldlM (a.closeEdge node skipsInner) n

/-- The closed scope of an automaton whose scope begins at a state, with its silent steps: a node
for each state, followed by the node where the scope begins and the one where its words end. -/
def scopeNodes (d : Dfa) (entry : Nat) : Except Fault Nfa := do
  let exit := d.size + 1
  let n := (Nfa.ofAlphabet d.alphabet).addNodes (d.size + 2)
  let n ← d.states.foldlM (fun n state => a.closeState d exit true n state state) n
  a.closeState d exit false n d.size entry

/-- The closed scope of an automaton whose scope begins at a state. -/
def closeFrom (d : Dfa) (entry : Nat) : Except Fault Dfa := do
  let n ← a.scopeNodes d entry
  let closed ← n.determinized ⟨d.size, d.size + 1⟩
  closed.minimized

/-- Resolves the anchors of a scope. Without a start anchor only the empty word is left. -/
def closeScope (d : Dfa) : Except Fault Dfa := do
  match ← a.scopeStart d with
  | none => return .emptyWord d.alphabet
  | some entry => a.closeFrom d entry

end Alphabet
end CallChain
