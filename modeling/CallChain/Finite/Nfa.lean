import CallChain.Finite.Dfa

/-!
# Automata with silent steps, built from fragments

A fragment is a part of an automaton with one entry and one exit; its words are those on the paths
from the entry to the exit. The combinators below make fragments from fragments by adding nodes and
silent steps, and never remove anything. A fragment that is used as an operand more than once shares
its nodes between the uses.
-/

namespace CallChain

/-- The symbols from `start` up to and without `stop`. -/
structure SymbolRange where
  start : Nat
  stop : Nat
deriving DecidableEq, Repr

namespace SymbolRange

def single (symbol : Nat) : SymbolRange := ⟨symbol, symbol + 1⟩

def contains (r : SymbolRange) (symbol : Nat) : Bool := r.start ≤ symbol && symbol < r.stop

def isEmpty (r : SymbolRange) : Bool := r.start = r.stop

end SymbolRange

structure Node where
  /-- Steps that take any symbol of a range. -/
  edges : List (SymbolRange × Nat)
  /-- Steps that take none. -/
  silent : List Nat
deriving DecidableEq, Repr

structure Nfa where
  /-- Number of symbols. -/
  alphabet : Nat
  nodes : Array Node
deriving DecidableEq, Repr

structure Fragment where
  entry : Nat
  exit : Nat
deriving DecidableEq, Repr

namespace Nfa

def ofAlphabet (alphabet : Nat) : Nfa := ⟨alphabet, #[]⟩

variable (n : Nfa)

def size : Nat := n.nodes.size

/-! ### Nodes and steps -/

def addNode : Nfa × Nat := ({ n with nodes := n.nodes.push ⟨[], []⟩ }, n.size)

/-- A step on any symbol of a range; an empty range adds nothing. -/
def connect (source : Nat) (range : SymbolRange) (target : Nat) : Nfa :=
  if range.isEmpty then n
  else { n with nodes := n.nodes.modify source fun node =>
      { node with edges := node.edges ++ [(range, target)] } }

def connectSilent (source target : Nat) : Nfa :=
  { n with nodes := n.nodes.modify source fun node =>
      { node with silent := node.silent ++ [target] } }

/-- Two new nodes, the first for the entry of a fragment and the second for its exit. -/
def addPair : Nfa × Fragment :=
  let (n, entry) := n.addNode
  let (n, exit) := n.addNode
  (n, ⟨entry, exit⟩)

/-! ### Combinators -/

/-- The words of one symbol from a range. -/
def symbols (range : SymbolRange) : Nfa × Fragment :=
  let (n, f) := n.addPair
  (n.connect f.entry range f.exit, f)

/-- The word of one symbol. -/
def symbol (s : Nat) : Nfa × Fragment := n.symbols (.single s)

/-- The empty word. -/
def epsilon : Nfa × Fragment :=
  let (n, f) := n.addPair
  (n.connectSilent f.entry f.exit, f)

/-- No word. -/
def nothing : Nfa × Fragment := n.addPair

/-- Connects each fragment with the one after it. -/
def link (n : Nfa) : List Fragment → Nfa
  | f :: g :: rest => link (n.connectSilent f.exit g.entry) (g :: rest)
  | _ => n

/-- A word of each fragment in turn. -/
def sequence (fragments : List Fragment) : Nfa × Fragment :=
  match fragments with
  | [] => n.epsilon
  | first :: rest => (n.link (first :: rest), ⟨first.entry, ((first :: rest).getLastD first).exit⟩)

/-- A word of one of the fragments. -/
def alternation (fragments : List Fragment) : Nfa × Fragment :=
  match fragments with
  | [] => n.nothing
  | [single] => (n, single)
  | _ =>
    let (n, whole) := n.addPair
    (fragments.foldl
      (fun n f => (n.connectSilent whole.entry f.entry).connectSilent f.exit whole.exit) n, whole)

/-- Any number of words, one after the other. -/
def star (inner : Fragment) : Nfa × Fragment :=
  let (n, whole) := n.addPair
  (((n.connectSilent whole.entry inner.entry).connectSilent whole.entry whole.exit).connectSilent
    inner.exit whole.entry, whole)

/-- At least one word. -/
def plus (inner : Fragment) : Nfa × Fragment :=
  let (n, loop) := n.addPair
  (((n.connectSilent inner.exit loop.entry).connectSilent loop.entry inner.entry).connectSilent
    loop.entry loop.exit, ⟨inner.entry, loop.exit⟩)

/-- At most one word. -/
def optional (inner : Fragment) : Nfa × Fragment :=
  let (n, whole) := n.addPair
  (((n.connectSilent whole.entry inner.entry).connectSilent whole.entry whole.exit).connectSilent
    inner.exit whole.exit, whole)

/-- Adds a transition to runs of symbols, the last run first. The last run grows by the next symbol
if that leads to the same state. -/
def extendRuns (runs : List (SymbolRange × Nat)) (edge : Nat × Nat) : List (SymbolRange × Nat) :=
  match runs with
  | (range, target) :: rest =>
    if range.stop = edge.1 ∧ target = edge.2 then
      (⟨range.start, range.stop + 1⟩, target) :: rest
    else
      (.single edge.1, edge.2) :: (range, target) :: rest
  | [] => [(.single edge.1, edge.2)]

/-- Some transitions, neighbouring symbols that lead to one state as one range. -/
def mergeRuns (edges : List (Nat × Nat)) : List (SymbolRange × Nat) :=
  (edges.foldl extendRuns []).reverse

/-- The transitions of a state, neighbouring symbols that lead to one state as one range. -/
def symbolRuns (d : Dfa) (state : Nat) : List (SymbolRange × Nat) := mergeRuns (d.edges state)

/-- A state of an embedded automaton as a node, its states moved up by `base`. -/
def copyState (d : Dfa) (base exit state : Nat) : Node where
  edges := (symbolRuns d state).map fun (range, target) => (range, base + target)
  silent := if d.isAccepting state then [exit] else []

/-- A copy of a deterministic automaton: its states, and one exit. -/
def copy (d : Dfa) : Nfa × Fragment :=
  let exit := n.size + d.size
  let copies := d.states.map (copyState d n.size exit)
  ({ n with nodes := (n.nodes ++ copies.toArray).push ⟨[], []⟩ }, ⟨n.size + d.initial, exit⟩)

/-! ### Sets of nodes -/

def silentSteps (node : Nat) : List Nat := (n.nodes[node]?.map (·.silent)).getD []

/-- What silent steps reach from some nodes, in ascending order. -/
def closure (seeds : List Nat) : List Nat :=
  let reached := discover n.silentSteps (n.size + seeds.length) seeds
  (List.range n.size).filter reached.contains

/-- What one symbol reaches from some nodes. -/
def move (nodes : List Nat) (symbol : Nat) : List Nat :=
  nodes.flatMap fun node =>
    ((n.nodes[node]?.map (·.edges)).getD []).filterMap fun (range, target) =>
      if range.contains symbol then some target else none

end Nfa
end CallChain
