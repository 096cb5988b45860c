import CallChain.Fault
import CallChain.Text.Span

/-!
# Grammars as regular expressions

A grammar is a regular expression over the names of actions. A literal stands for any one overload
of its name, a reference for the body of a subexpression, and the three anchors mark the start, the
end and a place inside of the scope they occur in.

A sequence and a choice normally have at least two operands. `Regex.nonEmpty`, the operand without
the empty sequence, has no written form.
-/

namespace CallChain

/-- A name and where it was written. -/
structure Name where
  text : String
  span : Span
deriving DecidableEq, Repr

inductive Quantifier where
  | star
  | plus
  | optional
deriving DecidableEq, Repr

def Quantifier.symbol : Quantifier → String
  | star => "*"
  | plus => "+"
  | optional => "?"

inductive Anchor where
  /-- `^` -/
  | start
  /-- `!` -/
  | stop
  /-- `/` -/
  | inner
deriving DecidableEq, Repr

namespace Anchor

def all : List Anchor := [start, stop, inner]

def symbol : Anchor → String
  | start => "^"
  | stop => "!"
  | inner => "/"

end Anchor

inductive Regex where
  /-- Any overload of the named action. -/
  | literal (name : Name)
  /-- The body of the named subexpression. -/
  | ref (name : Name)
  | anchor (a : Anchor)
  | concat (operands : List Regex)
  | alt (operands : List Regex)
  | quantified (operand : Regex) (q : Quantifier)
  /-- The operand without the empty sequence. -/
  | nonEmpty (operand : Regex)
deriving Repr

namespace Regex

/-! ### Building -/

/-- Folds a single operand into itself; nothing is no operand list. -/
def fold (wrap : List Regex → Regex) : List Regex → Except Fault Regex
  | [] => .error .emptyOperandList
  | [operand] => .ok operand
  | operands => .ok (wrap operands)

/-- A sequence; one operand stands for itself. -/
def sequence (operands : List Regex) : Except Fault Regex := fold concat operands

/-- A choice; one operand stands for itself. -/
def choice (operands : List Regex) : Except Fault Regex := fold alt operands

/-! ### Names -/

mutual

/-- The names of literals, in order of occurrence. -/
def literals : Regex → List Name
  | literal name => [name]
  | ref _ => []
  | anchor _ => []
  | concat operands => literalsOf operands
  | alt operands => literalsOf operands
  | quantified operand _ => literals operand
  | nonEmpty operand => literals operand

def literalsOf : List Regex → List Name
  | [] => []
  | operand :: operands => literals operand ++ literalsOf operands

end

mutual

/-- The names of references, in order of occurrence. -/
def refs : Regex → List Name
  | literal _ => []
  | ref name => [name]
  | anchor _ => []
  | concat operands => refsOf operands
  | alt operands => refsOf operands
  | quantified operand _ => refs operand
  | nonEmpty operand => refs operand

def refsOf : List Regex → List Name
  | [] => []
  | operand :: operands => refs operand ++ refsOf operands

end

end Regex
end CallChain
