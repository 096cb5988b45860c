import CallChain.Alphabet
import CallChain.Compile.Problem
import CallChain.Finite.Checked
import CallChain.Finite.Product

/-!
# From a regular expression to a fragment

Each operator of a regular expression is a combinator on fragments. A reference copies the automaton
of the subexpression; an operand that must not be empty is made into an automaton of its own first,
from which the empty word is then taken away.
-/

namespace CallChain

/-- The smallest automaton of the nonempty words of a fragment. -/
def Nfa.nonEmptyWords (n : Nfa) (f : Fragment) : Except Fault Dfa := do
  let words ← n.determinized f
  let nonEmpty ← words.intersect (← (Dfa.emptyWord n.alphabet).complemented)
  nonEmpty.minimized

/-- Applies a quantifier to a fragment. -/
def Nfa.quantify (n : Nfa) (f : Fragment) : Quantifier → Except Fault (Nfa × Fragment)
  | .star => n.makeStar f
  | .plus => n.makePlus f
  | .optional => n.makeOptional f

namespace Regex

variable (a : Alphabet) (context : Option String) (lookup : Name → CompileM Dfa)

/-- The fragment of a literal. -/
def literalFragment (name : Name) (n : Nfa) : CompileM (Nfa × Fragment) :=
  match a.range? name.text with
  | some range => .checked (n.makeSymbols range)
  | none => .fail (.undefinedIdentifier name.text context)

mutual

/-- Adds the fragment of an expression to an automaton. `lookup` finds what a reference stands for,
`context` is the subexpression that the expression belongs to. -/
def toFragment : Regex → Nfa → CompileM (Nfa × Fragment)
  | literal name, n => literalFragment a context name n
  | ref name, n => do .checked (n.embed (← lookup name))
  | anchor mark, n => .checked (n.makeSymbol (a.anchorSymbol mark))
  | concat operands, n => do
    let (n, parts) ← toFragments operands n
    .checked (n.makeSequence parts)
  | alt operands, n => do
    let (n, parts) ← toFragments operands n
    .checked (n.makeAlternation parts)
  | quantified operand q, n => do
    let (n, part) ← toFragment operand n
    .checked (n.quantify part q)
  | nonEmpty operand, n => do
    let (inner, part) ← toFragment operand (.ofAlphabet a.size)
    .checked (n.embed (← .checked (inner.nonEmptyWords part)))

/-- Adds the fragments of some expressions, from left to right. -/
def toFragments : List Regex → Nfa → CompileM (Nfa × List Fragment)
  | [], n => pure (n, [])
  | operand :: operands, n => do
    let (n, part) ← toFragment operand n
    let (n, parts) ← toFragments operands n
    return (n, part :: parts)

end

end Regex
end CallChain
