import CallChain.Grammar.Tree
import CallChain.Regex

/-!
# From a syntax tree to a regular expression

`Regex.ofRoot?` keeps of a tree what it means: groups and blanks are folded away, names keep their
spans. A tree that holds a misplaced token, or a node without an operand it needs, means nothing.
-/

namespace CallChain.Regex

/-- The only element of a list. -/
def single? {α : Type} : List α → Option α
  | [a] => some a
  | _ => none

def quantifierOf : SyntaxKind → Quantifier
  | .star => .star
  | .plus => .plus
  | _ => .optional

def anchorOf : SyntaxKind → Anchor
  | .caret => .start
  | .slash => .inner
  | _ => .stop

def nameOf (token : Token) : Name := ⟨token.text, token.span⟩

/-- The name token of a node. -/
def nameIn? (children : List Tree) : Option Name :=
  (Tree.firstToken? children (· = .id)).map nameOf

/-- Applies a quantifier token to the first of the meanings found below a node. -/
def quantify? (children : List Tree) (operands : List (Option Regex)) : Option Regex := do
  let operand ← operands.head?
  let operand ← operand
  let token ← Tree.firstToken? children KindSet.quantifiers.contains
  return quantified operand (quantifierOf token.kind)

/-- A list of at least two operands, all of which mean something. -/
def operands? (operands : List (Option Regex)) : Option (List Regex) := do
  let operands ← operands.mapM fun operand => operand
  if operands.length < 2 then none else some operands

/-- The meaning of a node from its children and the meanings of those that are nodes. -/
def ofNode? (kind : SyntaxKind) (children : List Tree) (meanings : List (Option Regex)) :
    Option Regex :=
  match kind with
  | .alt => (operands? meanings).map alt
  | .concat => (operands? meanings).map concat
  | .quantified => quantify? children meanings
  | .group => (single? meanings).join
  | .ident => (nameIn? children).map literal
  | .subExprRef => (nameIn? children).map ref
  | .anchor =>
    (Tree.firstToken? children KindSet.anchors.contains).map fun token =>
      anchor (anchorOf token.kind)
  | _ => none

mutual

/-- The meaning of a tree; a token by itself has none. -/
def ofTree? : Tree → Option Regex
  | .leaf _ => none
  | .node kind children => ofNode? kind children (meaningsOf children)

/-- The meanings of the nodes among some trees. -/
def meaningsOf : List Tree → List (Option Regex)
  | [] => []
  | tree :: trees => if tree.isNode then ofTree? tree :: meaningsOf trees else meaningsOf trees

end

/-- The meaning of a root: that of the only node below it. -/
def ofRoot? : Tree → Option Regex
  | .leaf _ => none
  | .node _ children => (single? (meaningsOf children)).join

end CallChain.Regex
