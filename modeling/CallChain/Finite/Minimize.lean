import CallChain.Finite.Dfa

/-!
# The smallest automaton of a language

The states that are live are divided into blocks, at first by whether they accept; a block is
divided further as long as some symbol leads from two of its states to different blocks, or from one
of them to a state that is not live. Each block becomes one state. The result is numbered by a
breadth-first search, so it depends on the language and the alphabet alone, unless no word is
accepted.

Every round numbers the blocks anew, in the order in which their first states are met. States that
are not live keep their place in the table of blocks, but what stands there says nothing.

`Dfa.minimized` makes the same automaton with every look-up checked.
-/

namespace CallChain

/-! ### Numbers of entries -/

/-- Numbers the entries of a list in the order of their first occurrences, and counts them. Where
there is no entry the number is 0. -/
def numberLooks {α : Type} [BEq α] (looks : List (Option α)) : Array Nat × Nat :=
  let seen := fresh [] (looks.filterMap id)
  ((looks.map fun look => look.elim 0 seen.idxOf).toArray, seen.length)

namespace Dfa

/-! ### Live states -/

section Live

variable (d : Dfa)

/-- All transitions, each as the state that it leaves and the state that it enters. -/
def arrows : List (Nat × Nat) :=
  d.states.flatMap fun source => (d.successors source).map (source, ·)

/-- The states that some arrow into a state leaves. -/
def sources (arrows : List (Nat × Nat)) (state : Nat) : List Nat :=
  arrows.filterMap fun (source, target) => if target = state then some source else none

/-- The states from which a word is accepted. -/
def productive : List Nat :=
  let arrows := d.arrows
  discover (sources arrows) d.size (d.states.filter d.isAccepting)

/-- The states that some word leads to. -/
def reachable : List Nat := stepOrder d.alphabet d.next d.size d.initial

/-- For each state, whether it is reached and a word is accepted from it. The initial state is
always live. -/
def live : Array Bool :=
  let reachable := d.reachable
  let productive := d.productive
  (d.states.map fun state =>
    reachable.contains state && (productive.contains state || state = d.initial)).toArray

/-- Does a state stand in the table as live? -/
def isLive (live : Array Bool) (state : Nat) : Bool := live.getD state false

/-- The automaton without the transitions to states that are not live. -/
def restrict (live : Array Bool) : Dfa :=
  { d with rows := d.rows.map fun row =>
      { row with targets := row.targets.map (·.filter (isLive live)) } }

end Live

/-! ### Blocks of states -/

/-- The number of the block of each state, and how many blocks were counted. -/
structure Blocks where
  numbers : Array Nat
  count : Nat

def Blocks.of (blocks : Blocks) (state : Nat) : Nat := blocks.numbers.getD state 0

variable (d : Dfa) (live : Array Bool)

/-- What a round sees of a state: its block, and the blocks that the symbols lead to. -/
abbrev Signature := Nat × List (Option Nat)

def signature (blocks : Blocks) (state : Nat) : Signature :=
  (blocks.of state, (d.targets state).map (·.map blocks.of))

/-- One round: live states stay in one block if they look alike. -/
def divide (blocks : Blocks) : Blocks :=
  let looks := d.states.map fun state =>
    if isLive live state then some (d.signature blocks state) else none
  let (numbers, count) := numberLooks looks
  ⟨numbers, count⟩

/-- Rounds until one counts no more blocks than the one before. -/
def refine : Nat → Blocks → Blocks
  | 0, blocks => blocks
  | fuel + 1, blocks =>
    let divided := d.divide live blocks
    if divided.count = blocks.count then divided else refine fuel divided

/-- What the rounds begin with: states that accept and states that do not, not counted yet. -/
def acceptance : Blocks := ⟨d.rows.map fun row => if row.accepting then 1 else 0, 0⟩

/-- The coarsest blocks that accepting and every symbol respect. Each round but the last counts at
least one more block. -/
def blocks : Blocks := d.refine live (d.size + 1) d.acceptance

/-! ### The result -/

/-- The first live state of each block. -/
def representatives (blocks : Blocks) : Array (Option Nat) :=
  ((List.range blocks.count).map fun block =>
    d.states.find? fun state => isLive live state && blocks.of state = block).toArray

/-- The block that a symbol leads to from the state that represents a block. -/
def blockStep (blocks : Blocks) (representatives : Array (Option Nat)) (block symbol : Nat) :
    Option Nat := do
  let state ← representatives[block]?.join
  let target ← d.next state symbol
  return blocks.of target

/-- The automaton with one state per block. -/
def merge (blocks : Blocks) : Dfa :=
  let representatives := d.representatives live blocks
  ofSteps d.alphabet (d.blockStep blocks representatives)
    (fun block => representatives[block]?.join.any d.isAccepting) blocks.count
    (blocks.of d.initial)

/-- The smallest automaton with the same words. -/
def minimize : Dfa :=
  let live := d.live
  let d := d.restrict live
  d.merge live (d.blocks live)

end Dfa
end CallChain
