import CallChain.Access
import CallChain.Action.Table
import CallChain.Finite.Nfa
import CallChain.Regex

/-!
# The alphabet of a compilation

The actions of a table are the first symbols, those of one name side by side, so that a literal is a
range of symbols. The names follow in order of first declaration. The three anchors come last; they
never leave the compilation.
-/

namespace CallChain

/-- What a symbol stands for. -/
inductive SymbolKind where
  | action (id : ActionId)
  | anchor (a : Anchor)
deriving DecidableEq, Repr

structure Alphabet where
  /-- The action behind each symbol. -/
  actions : List ActionId
  names : List (String × SymbolRange)
deriving DecidableEq, Repr

namespace Alphabet

/-- Gives the next symbols to the actions of a name. -/
def addName (t : ActionTable) (a : Alphabet) (name : String) : Alphabet :=
  let members := (t.byName? name).getD []
  let start := a.actions.length
  ⟨a.actions ++ members, a.names ++ [(name, ⟨start, start + members.length⟩)]⟩

def ofTable (t : ActionTable) : Alphabet := t.names.foldl (addName t) ⟨[], []⟩

variable (a : Alphabet)

/-- Number of symbols that are actions. -/
def actionCount : Nat := a.actions.length

/-- Actions and anchors. -/
def size : Nat := a.actionCount + Anchor.all.length

/-- The symbols of every overload of a name. -/
def range? (name : String) : Option SymbolRange := a.names.lookup name

def symbol (id : ActionId) : Nat := a.actions.idxOf id

/-- Writes the symbol of an action to its place. -/
def writeSymbol (table : Array Nat) (p : ActionId × Nat) : Except Fault (Array Nat) :=
  writeAt table p.1.index p.2

/-- The symbols of the actions, by index, in a table that has room for `count` actions. -/
def symbolTable (count : Nat) : Except Fault (Array Nat) :=
  a.actions.zipIdx.foldlM writeSymbol (.replicate count 0)

def action? (symbol : Nat) : Option ActionId := a.actions[symbol]?

def anchorSymbol (anchor : Anchor) : Nat := a.actionCount + Anchor.all.idxOf anchor

/-- What a symbol stands for. -/
def classify (symbol : Nat) : Except Fault SymbolKind :=
  match a.action? symbol with
  | some id => .ok (.action id)
  | none =>
    match Anchor.all.find? (a.anchorSymbol · = symbol) with
    | some anchor => .ok (.anchor anchor)
    | none => .error .symbolOutsideAlphabet

def isAnchor (symbol : Nat) : Except Fault Bool :=
  (a.classify symbol).map fun
    | .action _ => false
    | .anchor _ => true

end Alphabet
end CallChain
