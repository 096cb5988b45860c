import CallChain.Regex

/-!
# Writing a regular expression

An expression is written back as grammar text with the fewest parentheses that keep its structure: a
choice binds loosest, a sequence tighter, and everything else stands by itself. An operand is
parenthesized exactly where it binds looser than its place asks for.

`Regex.nonEmpty` has no form in grammar texts; it is shown between square brackets.
-/

namespace CallChain.Regex

/-- How tightly an expression binds. -/
def precedence : Regex → Nat
  | alt _ => 0
  | concat _ => 1
  | _ => 2

/-- Parenthesizes what binds looser than its place asks for. -/
def wrap (needed actual : Nat) (content : String) : String :=
  if actual < needed then "(" ++ content ++ ")" else content

mutual

/-- The written form where at least the precedence `needed` is asked for. -/
def printAt (needed : Nat) : Regex → String
  | literal name => name.text
  | ref name => "<" ++ name.text ++ ">"
  | anchor a => a.symbol
  | alt operands => wrap needed 0 (" | ".intercalate (printAll 1 operands))
  | concat operands => wrap needed 1 (" ".intercalate (printAll 2 operands))
  | quantified operand q => printAt 2 operand ++ q.symbol
  | nonEmpty operand => "[" ++ printAt 0 operand ++ "]"

def printAll (needed : Nat) : List Regex → List String
  | [] => []
  | operand :: operands => printAt needed operand :: printAll needed operands

end

/-- The written form. -/
def print (r : Regex) : String := printAt 0 r

end CallChain.Regex
