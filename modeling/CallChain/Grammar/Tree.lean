import CallChain.Grammar.Token
import CallChain.Text.Quoted

/-!
# Syntax trees

A tree keeps every token of the text it was read from, blanks and misplaced tokens included: its
leaves in order are the tokens of the text.

`outline` shows a tree on indented lines. Tokens that carry nothing beyond the node they stand in
are shown on request only.
-/

namespace CallChain

inductive Tree where
  | leaf (token : Token)
  | node (kind : SyntaxKind) (children : List Tree)

namespace Tree

/-! ### Tokens of a tree -/

mutual

/-- The tokens of a tree from left to right. -/
def leaves : Tree → List Token
  | leaf token => [token]
  | node _ children => leavesOf children

def leavesOf : List Tree → List Token
  | [] => []
  | tree :: trees => leaves tree ++ leavesOf trees

end

/-- The text that a tree was read from. -/
def text (tree : Tree) : String := String.join (tree.leaves.map (·.text))

/-- The stretch from the first token to the last, for a tree that begins at offset zero. -/
def extent (tree : Tree) : Span := ⟨0, tree.text.utf8ByteSize⟩

/-! ### Children -/

def isNode : Tree → Bool
  | leaf _ => false
  | node _ _ => true

/-- The first token directly below a node that satisfies a test on its kind. -/
def firstToken? (children : List Tree) (test : SyntaxKind → Bool) : Option Token :=
  children.findSome? fun
    | leaf token => if test token.kind then some token else none
    | node _ _ => none

/-! ### Outline -/

/-- Does a token say more than the node it stands in? -/
def isNamedToken (k : SyntaxKind) : Bool :=
  k = .id || k = .garbage || KindSet.quantifiers.contains k || KindSet.anchors.contains k

/-- One line of an outline. -/
def outlineLine (depth : Nat) (content : String) : String :=
  String.ofList (List.replicate (2 * depth) ' ') ++ content ++ "\n"

mutual

/-- The lines of a tree that stands `depth` levels deep; `raw` shows every token. -/
def outlineAt (raw : Bool) (depth : Nat) : Tree → String
  | leaf token =>
    if raw || isNamedToken token.kind then
      outlineLine depth (token.kind.name ++ " " ++ Text.quoted token.text)
    else
      ""
  | node kind children => outlineLine depth kind.name ++ outlineOf raw (depth + 1) children

def outlineOf (raw : Bool) (depth : Nat) : List Tree → String
  | [] => ""
  | tree :: trees => outlineAt raw depth tree ++ outlineOf raw depth trees

end

/-- The tree on indented lines. -/
def outline (raw : Bool) (tree : Tree) : String := outlineAt raw 0 tree

end Tree
end CallChain
