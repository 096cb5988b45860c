import CallChain.Action
import CallChain.Automaton.State

/-!
# Faults

A fault is what an operation answers when its caller breaks a rule of the library: a handle from
another table, automata over different alphabets, an operand list without operands. No grammar
text and no definition file can cause one; each operation that could meet one says so in its type
and leaves what it was given as it was.
-/

namespace CallChain

inductive Fault where
  /-- An action handle that is not of this table. -/
  | unknownAction (id : ActionId) (size : Nat)
  /-- A state handle that is not of this automaton. -/
  | unknownState (id : StateId) (count : Nat)
  /-- A successor of a numbered state without a number. -/
  | unnumberedState (id : StateId)
  /-- A symbol that is neither an action nor an anchor, or a range that leaves the alphabet. -/
  | symbolOutsideAlphabet
  /-- A symbol that a transition table has no column for. -/
  | missingColumn (symbol : Nat)
  /-- An index that a table has no room for. -/
  | outOfBounds (index length : Nat)
  /-- An element of a search that was never given a number. -/
  | unnumberedElement
  /-- A block of states that no live state belongs to. -/
  | emptyBlock
  /-- A block of states that is entered and has no number. -/
  | unnumberedBlock
  | embeddedAlphabet (embedded own : Nat)
  | intersectedAlphabets (left right : Nat)
  /-- A sequence or a choice of nothing. -/
  | emptyOperandList
  | namedRoot
  | unnamedDefinition
  /-- Texts without errors that have no registry. -/
  | missingRegistry
  /-- A production looked at one token too often without taking any. -/
  | stuckParser (token : Nat)
  /-- A production took a token where none was left. -/
  | readPastEnd
deriving DecidableEq, Repr

namespace Fault

/-- Two alphabet sizes that had to be equal. -/
def mismatch (situation : String) (left right : Nat) : String :=
  "assertion `left == right` failed: " ++ situation ++ "\n  left: " ++ toString left ++
    "\n right: " ++ toString right

def message : Fault → String
  | unknownAction id size =>
    "ActionTable: " ++ toString id ++
      " not found (ids must come from the table they index, len " ++ toString size ++ ")"
  | unknownState id count =>
    "Automaton: " ++ toString id ++ " not found (state count " ++ toString count ++ ")"
  | unnumberedState id =>
    "CanonicalNumbering: " ++ toString id ++ " has no id (successor of a reachable state)"
  | symbolOutsideAlphabet => "symbol outside alphabet"
  | missingColumn symbol => "symbol " ++ toString symbol ++ " outside alphabet"
  | outOfBounds index length =>
    "index out of bounds: the len is " ++ toString length ++ " but the index is " ++ toString index
  | unnumberedElement => "no entry found for key"
  | emptyBlock => "every block has a member"
  | unnumberedBlock => "queued block has an id"
  | embeddedAlphabet embedded own =>
    mismatch "embedding automaton over a different alphabet" embedded own
  | intersectedAlphabets left right =>
    mismatch "intersecting automata over different alphabets" left right
  | emptyOperandList => "empty operand list"
  | namedRoot => "registry root must be unnamed"
  | unnamedDefinition => "only named subexpressions can be defined"
  | missingRegistry => "error-free grammar always has a registry"
  | stuckParser token => "parser is stuck at token " ++ toString token
  | readPastEnd => "bump called at EOF"

end Fault
end CallChain
