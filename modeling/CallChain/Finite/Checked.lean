import CallChain.Finite.Determinize
import CallChain.Finite.Minimize
import CallChain.Finite.Search

/-!
# Determinizing and minimizing, step by step

The versions that a compilation uses. They look up the nodes, states and blocks that steps lead to
one at a time, and write each transition of the result; a node, a state or a block that is missing
is a fault.
-/

namespace CallChain

namespace Nfa

variable (n : Nfa)

/-- The nodes that the silent steps of a node lead to. -/
def silentTargets (id : Nat) : Except Fault (List Nat) := do
  checkIndices n.size (← n.node id).silent

/-- What silent steps reach from some nodes, in ascending order. -/
def closed (seeds : List Nat) : Except Fault (List Nat) := do
  let seeds ← checkIndices n.size seeds
  let reached ← discoverM n.silentTargets (n.size + seeds.length) seeds
  return (List.range n.size).filter reached.contains

/-- What one symbol reaches from some nodes. -/
def moved (nodes : List Nat) (symbol : Nat) : Except Fault (List Nat) := do
  let found ← nodes.mapM n.node
  return (found.flatMap (·.edges)).filterMap fun (range, target) =>
    if range.contains symbol then some target else none

/-- The set after one more symbol, and whether it holds the exit; none if nothing is left. -/
def enteredSet (exit : Nat) (nodes : List Nat) (symbol : Nat) :
    Except Fault (Option (List Nat × Except Fault Bool)) := do
  let moved ← n.moved nodes symbol
  if moved.isEmpty then
    return none
  else
    let after ← n.closed moved
    return some (after, .ok (after.contains exit))

/-- The deterministic automaton of a fragment. -/
def determinized (f : Fragment) : Except Fault Dfa := do
  let start ← n.closed [f.entry]
  Dfa.searched n.alphabet (n.enteredSet f.exit) .unnumberedElement (Nat.pow 2 n.size) start
    (.ok (start.contains f.exit))

end Nfa

namespace Dfa

variable (d : Dfa)

/-! ### Live states -/

/-- The states that the transitions of a state enter. -/
def entered (state : Nat) : Except Fault (List Nat) := do
  checkIndices d.size ((← d.transitions state).map (·.2))

/-- All transitions, each as the state that it leaves and the state that it enters. -/
def enteredArrows : Except Fault (List (Nat × Nat)) := do
  let arrows ← d.states.mapM fun source => return (← d.entered source).map (source, ·)
  return arrows.flatten

/-- For each state, whether it is reached and a word is accepted from it. The initial state is
always live. -/
def foundLive : Except Fault (Array Bool) := do
  let seeds ← checkIndices d.size [d.initial]
  let reachable ← discoverM d.entered d.size seeds
  let arrows ← d.enteredArrows
  let accepting ← d.states.filterM d.endsAt
  let productive ← discoverM (fun state => checkIndices d.size (sources arrows state)) d.size
    accepting
  return (d.states.map fun state =>
    reachable.contains state && (productive.contains state || state = d.initial)).toArray

/-! ### Blocks of states -/

variable (live : Array Bool)

/-- Where a symbol leads among the live states. -/
def liveTarget (state symbol : Nat) : Except Fault (Option Nat) := do
  match ← d.transition state symbol with
  | none => return none
  | some target => return if ← readAt live target then some target else none

/-- The block that a symbol leads to. -/
def blockBehind (blocks : Blocks) (state symbol : Nat) : Except Fault (Option Nat) := do
  match ← d.liveTarget live state symbol with
  | none => return none
  | some target => return some (← readAt blocks.numbers target)

/-- What a round sees of a state. -/
def readSignature (blocks : Blocks) (state : Nat) : Except Fault Signature := do
  let row ← d.symbols.mapM (d.blockBehind live blocks state)
  return (← readAt blocks.numbers state, row)

/-- What a round sees of a state that is live. -/
def look (blocks : Blocks) (state : Nat) : Except Fault (Option Signature) := do
  if ← readAt live state then
    return some (← d.readSignature live blocks state)
  else
    return none

/-- One round: live states stay in one block if they look alike. -/
def divided (blocks : Blocks) : Except Fault Blocks := do
  let (numbers, count) := numberLooks (← d.states.mapM (d.look live blocks))
  return ⟨numbers, count⟩

/-- Rounds until one counts no more blocks than the one before. -/
def refined : Nat → Blocks → Except Fault Blocks
  | 0, blocks => .ok blocks
  | fuel + 1, blocks => do
    let divided ← d.divided live blocks
    if divided.count = blocks.count then
      return divided
    else
      refined fuel divided

/-! ### The result -/

/-- Enters a live state as the one that represents its block, unless the block has one. -/
def represent (blocks : Blocks) (representatives : Array (Option Nat)) (state : Nat) :
    Except Fault (Array (Option Nat)) := do
  if ← readAt live state then
    let block ← readAt blocks.numbers state
    let known ← readAt representatives block
    writeAt representatives block (known <|> some state)
  else
    return representatives

/-- The first live state of each block. -/
def represented (blocks : Blocks) : Except Fault (Array (Option Nat)) :=
  d.states.foldlM (represent live blocks) (.replicate blocks.count none)

/-- A block, which has to be one of those that were counted. -/
def blockOf (blocks : Blocks) (state : Nat) : Except Fault Nat := do
  let block ← readAt blocks.numbers state
  checkIndex blocks.count block
  return block

/-- The block that a symbol leads to from the state that represents a block, and whether words end
where it leads. -/
def enteredBlock (blocks : Blocks) (representatives : Array (Option Nat)) (block symbol : Nat) :
    Except Fault (Option (Nat × Except Fault Bool)) := do
  match ← readAt representatives block with
  | none => .error .emptyBlock
  | some state =>
    match ← d.liveTarget live state symbol with
    | none => return none
    | some target => return some (← blockOf blocks target, d.endsAt target)

/-- The smallest automaton with the same words. -/
def minimized : Except Fault Dfa := do
  let live ← d.foundLive
  let blocks ← d.refined live (d.size + 1) d.acceptance
  let representatives ← d.represented live blocks
  let start ← blockOf blocks d.initial
  searched d.alphabet (d.enteredBlock live blocks representatives) .unnumberedBlock blocks.count
    start (d.endsAt d.initial)

end Dfa
end CallChain
