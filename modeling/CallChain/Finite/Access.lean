import CallChain.Access
import CallChain.Finite.Nfa

/-!
# Access to automata

The transition table of a deterministic automaton has a place for each state and each symbol of its
alphabet, and an automaton with silent steps is a table of nodes. Here every look-up and every
change names a place that has to be there; a transition may lead anywhere, and is found out where it
is followed.

`make…` are the combinators on fragments step by step: each node that a step is added to is looked
up first.
-/

namespace CallChain

namespace Dfa

variable (d : Dfa)

/-- Where a symbol leads from a state. The table has the states one after the other, each with a
column for every symbol of the alphabet. -/
def transition (state symbol : Nat) : Except Fault (Option Nat) :=
  if d.alphabet ≤ symbol then
    .error (.missingColumn symbol)
  else
    match (d.targets state)[symbol]? with
    | some target => .ok target
    | none => .error (.outOfBounds (state * d.alphabet + symbol) (d.size * d.alphabet))

/-- Sets or removes one transition. -/
def setTransition (state symbol : Nat) (target : Option Nat) : Except Fault Dfa := do
  let _ ← d.transition state symbol
  return d.setTarget state symbol target

/-- Puts what a function makes of it in the place of a transition. -/
def retarget (f : Option Nat → Option Nat) (state : Nat) (d : Dfa) (symbol : Nat) :
    Except Fault Dfa := do
  d.setTransition state symbol (f (← d.transition state symbol))

/-- May words end at a state? -/
def endsAt (state : Nat) : Except Fault Bool := (readAt d.rows state).map (·.accepting)

/-- The transitions of a state, by ascending symbol. -/
def transitions (state : Nat) : Except Fault (List (Nat × Nat)) :=
  (readAt d.rows state).map fun _ => d.edges state

end Dfa

namespace Nfa

variable (n : Nfa)

def node (id : Nat) : Except Fault Node := readAt n.nodes id

/-! ### Steps -/

/-- Adds a step on any symbol of a range; an empty range adds nothing. -/
def connected (source : Nat) (range : SymbolRange) (target : Nat) : Except Fault Nfa :=
  if n.alphabet < range.stop then
    .error .symbolOutsideAlphabet
  else if range.isEmpty then
    .ok n
  else do
    let _ ← n.node source
    return n.connect source range target

/-- Adds a silent step. -/
def connectedSilent (source target : Nat) : Except Fault Nfa := do
  let _ ← n.node source
  return n.connectSilent source target

/-! ### Combinators -/

/-- The words of one symbol from a range. -/
def makeSymbols (range : SymbolRange) : Except Fault (Nfa × Fragment) := do
  let (n, f) := n.addPair
  let n ← n.connected f.entry range f.exit
  return (n, f)

/-- The word of one symbol. -/
def makeSymbol (s : Nat) : Except Fault (Nfa × Fragment) := n.makeSymbols (.single s)

/-- The empty word. -/
def makeEpsilon : Except Fault (Nfa × Fragment) := do
  let (n, f) := n.addPair
  let n ← n.connectedSilent f.entry f.exit
  return (n, f)

/-- Connects each fragment with the one after it. -/
def linked (n : Nfa) : List Fragment → Except Fault Nfa
  | f :: g :: rest => do
    let n ← n.connectedSilent f.exit g.entry
    linked n (g :: rest)
  | _ => .ok n

/-- A word of each fragment in turn. -/
def makeSequence (fragments : List Fragment) : Except Fault (Nfa × Fragment) :=
  match fragments with
  | [] => n.makeEpsilon
  | first :: rest => do
    let n ← n.linked (first :: rest)
    return (n, ⟨first.entry, ((first :: rest).getLastD first).exit⟩)

/-- Connects a fragment with the two ends of the choice that it belongs to. -/
def offered (whole : Fragment) (n : Nfa) (f : Fragment) : Except Fault Nfa := do
  let n ← n.connectedSilent whole.entry f.entry
  n.connectedSilent f.exit whole.exit

/-- A word of one of the fragments. -/
def makeAlternation (fragments : List Fragment) : Except Fault (Nfa × Fragment) :=
  match fragments with
  | [] => .ok n.nothing
  | [single] => .ok (n, single)
  | _ => do
    let (n, whole) := n.addPair
    let n ← fragments.foldlM (offered whole) n
    return (n, whole)

/-- Any number of words, one after the other. -/
def makeStar (inner : Fragment) : Except Fault (Nfa × Fragment) := do
  let (n, whole) := n.addPair
  let n ← n.connectedSilent whole.entry inner.entry
  let n ← n.connectedSilent whole.entry whole.exit
  let n ← n.connectedSilent inner.exit whole.entry
  return (n, whole)

/-- At least one word. -/
def makePlus (inner : Fragment) : Except Fault (Nfa × Fragment) := do
  let (n, loop) := n.addPair
  let n ← n.connectedSilent inner.exit loop.entry
  let n ← n.connectedSilent loop.entry inner.entry
  let n ← n.connectedSilent loop.entry loop.exit
  return (n, ⟨inner.entry, loop.exit⟩)

/-- At most one word. -/
def makeOptional (inner : Fragment) : Except Fault (Nfa × Fragment) := do
  let (n, whole) := n.addPair
  let n ← n.connectedSilent whole.entry inner.entry
  let n ← n.connectedSilent whole.entry whole.exit
  let n ← n.connectedSilent inner.exit whole.exit
  return (n, whole)

/-! ### Copies -/

/-- Some nodes without steps. -/
def addNodes (count : Nat) : Nfa :=
  { n with nodes := n.nodes ++ Array.replicate count ⟨[], []⟩ }

/-- Adds the steps of a state of an embedded automaton, its states moved up by `base`. -/
def embedState (d : Dfa) (base exit : Nat) (n : Nfa) (state : Nat) : Except Fault Nfa := do
  let edges ← d.transitions state
  let n ← (mergeRuns edges).foldlM (fun n run => n.connected (base + state) run.1 (base + run.2)) n
  if ← d.endsAt state then
    n.connectedSilent (base + state) exit
  else
    return n

/-- Embeds a deterministic automaton over the same alphabet: its states, and one exit. -/
def embed (d : Dfa) : Except Fault (Nfa × Fragment) :=
  if d.alphabet ≠ n.alphabet then
    .error (.embeddedAlphabet d.alphabet n.alphabet)
  else do
    let base := n.size
    let (n, exit) := (n.addNodes d.size).addNode
    let n ← d.states.foldlM (embedState d base exit) n
    return (n, ⟨base + d.initial, exit⟩)

end Nfa
end CallChain
