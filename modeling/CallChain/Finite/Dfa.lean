import CallChain.Discovery

/-!
# Deterministic automata

Symbols and states are natural numbers. Transitions are partial: where one is missing the rest of
the word is rejected, so there is no explicit sink unless `Dfa.complement` adds one.

`Dfa.ofSteps` makes an automaton from any deterministic step function: its states are what a
breadth-first search from the start meets, numbered in order of discovery, symbols ascending.
Determinization, products and minimal automata are all built by it.

States and symbols, and the nodes and blocks of the other modules on finite automata, are counted
with natural numbers where the library counts with 32 bits: tables with 2^32 entries and more are
out of scope.
-/

namespace CallChain

/-- A state: whether words may end there, and where each symbol leads. -/
structure Row where
  accepting : Bool
  targets : List (Option Nat)
deriving DecidableEq, Repr

structure Dfa where
  /-- Number of symbols. -/
  alphabet : Nat
  rows : Array Row
  initial : Nat
deriving DecidableEq, Repr

namespace Dfa

/-! ### Building -/

/-- A state without transitions. -/
def blankRow (alphabet : Nat) (accepting : Bool) : Row :=
  ⟨accepting, List.replicate alphabet none⟩

/-- One state, which rejects. -/
def nothing (alphabet : Nat) : Dfa := ⟨alphabet, #[blankRow alphabet false], 0⟩

/-- One state, which accepts: the empty word and no other. -/
def emptyWord (alphabet : Nat) : Dfa := ⟨alphabet, #[blankRow alphabet true], 0⟩

variable (d : Dfa)

def size : Nat := d.rows.size

def states : List Nat := List.range d.size

def symbols : List Nat := List.range d.alphabet

/-- A further state without transitions, and its number. -/
def addState (accepting : Bool) : Nat × Dfa :=
  (d.size, { d with rows := d.rows.push (blankRow d.alphabet accepting) })

/-- Sets or removes one transition. -/
def setTarget (state symbol : Nat) (target : Option Nat) : Dfa :=
  { d with rows := d.rows.modify state fun row =>
      { row with targets := row.targets.set symbol target } }

/-- Removes the transitions of a state. -/
def clear (state : Nat) : Dfa :=
  { d with rows := d.rows.modify state fun row => blankRow d.alphabet row.accepting }

/-- Lets words end everywhere. -/
def acceptAll : Dfa :=
  { d with rows := d.rows.map fun row => { row with accepting := true } }

/-! ### Looking -/

/-- Where each symbol leads, by ascending symbol. -/
def targets (state : Nat) : List (Option Nat) := (d.rows[state]?.map (·.targets)).getD []

/-- Where a symbol leads. -/
def next (state symbol : Nat) : Option Nat := (d.targets state)[symbol]?.join

def isAccepting (state : Nat) : Bool := d.rows[state]?.any (·.accepting)

/-- The transitions of a state, by ascending symbol. -/
def edges (state : Nat) : List (Nat × Nat) :=
  (d.targets state).zipIdx.filterMap fun (target, symbol) => target.map (symbol, ·)

/-- The states that one symbol leads to, by ascending symbol. -/
def successors (state : Nat) : List Nat := (d.targets state).filterMap id

def hasTransitions (state : Nat) : Bool := !(d.successors state).isEmpty

def transitionCount : Nat :=
  (d.rows.toList.map fun row => row.targets.countP (·.isSome)).foldr (· + ·) 0

/-- Where a word leads. -/
def run (state : Nat) : List Nat → Option Nat
  | [] => some state
  | symbol :: word => (d.next state symbol).bind (run · word)

/-- A word leads where its second part leads from where its first part led. -/
theorem run_append (state : Nat) (u v : List Nat) :
    d.run state (u ++ v) = (d.run state u).bind (d.run · v) := by
  induction u generalizing state with
  | nil => rfl
  | cons symbol u ih => cases h : d.next state symbol <;> simp [run, h, ih]

def accepts (word : List Nat) : Bool := (d.run d.initial word).any d.isAccepting

/-- Do all transitions lead to states, and is there one per symbol of the alphabet? -/
def isWellFormed : Bool :=
  d.initial < d.size && d.rows.all fun row =>
    row.targets.length == d.alphabet && row.targets.all fun target => target.all (· < d.size)

/-! ### From a step function -/

/-- The states that a breadth-first search meets, in order of discovery. -/
def stepOrder {σ : Type} [BEq σ] (alphabet : Nat) (step : σ → Nat → Option σ) (bound : Nat)
    (start : σ) : List σ :=
  discover (fun s => (List.range alphabet).filterMap (step s)) bound [start]

/-- The automaton of a step function. `bound` limits the number of states. -/
def ofSteps {σ : Type} [BEq σ] (alphabet : Nat) (step : σ → Nat → Option σ) (accepting : σ → Bool)
    (bound : Nat) (start : σ) : Dfa :=
  let order := stepOrder alphabet step bound start
  let row (s : σ) : Row :=
    ⟨accepting s, (List.range alphabet).map fun symbol => (step s symbol).map order.idxOf⟩
  ⟨alphabet, (order.map row).toArray, 0⟩

end Dfa
end CallChain
