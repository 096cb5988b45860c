/-!
# Kinds of tokens and of tree nodes

A grammar text is read into tokens, and the tokens into a tree; both are classified by one list of
kinds, tokens first. `KindSet` is a finite set of kinds, shown by the numbers of its members.
-/

namespace CallChain

inductive SyntaxKind where
  | parenOpen
  | parenClose
  /-- Opens a reference to a subexpression. -/
  | angleOpen
  | angleClose
  | pipe
  | star
  | plus
  | question
  /-- Marks the start of a scope. -/
  | caret
  /-- Marks a place inside a scope. -/
  | slash
  /-- Marks the end of a scope. -/
  | bang
  | id
  | whitespace
  /-- Characters that start no token, as many as stand side by side. -/
  | garbage
  /-- A token that the grammar has no place for. -/
  | error
  | root
  | alt
  | concat
  | quantified
  | group
  | ident
  | subExprRef
  | anchor
deriving DecidableEq, Repr

namespace SyntaxKind

/-- All kinds, by number. -/
def all : List SyntaxKind :=
  [parenOpen, parenClose, angleOpen, angleClose, pipe, star, plus, question, caret, slash, bang, id,
    whitespace, garbage, error, root, alt, concat, quantified, group, ident, subExprRef, anchor]

/-- The place of a kind in the list of all kinds. -/
def number (k : SyntaxKind) : Nat := all.idxOf k

def name : SyntaxKind → String
  | parenOpen => "ParenOpen"
  | parenClose => "ParenClose"
  | angleOpen => "AngleOpen"
  | angleClose => "AngleClose"
  | pipe => "Pipe"
  | star => "Star"
  | plus => "Plus"
  | question => "Question"
  | caret => "Caret"
  | slash => "Slash"
  | bang => "Bang"
  | id => "Id"
  | whitespace => "Whitespace"
  | garbage => "Garbage"
  | error => "Error"
  | root => "Root"
  | alt => "Alt"
  | concat => "Concat"
  | quantified => "Quantified"
  | group => "Group"
  | ident => "Ident"
  | subExprRef => "SubExprRef"
  | anchor => "Anchor"

def ofName? (name : String) : Option SyntaxKind := all.find? (·.name == name)

/-- Does the grammar skip this kind of token? -/
def isTrivia (k : SyntaxKind) : Bool := k = whitespace

def isError (k : SyntaxKind) : Bool := k = error || k = garbage

end SyntaxKind

/-! ### Sets of kinds -/

structure KindSet where
  members : List SyntaxKind

namespace KindSet

def contains (s : KindSet) (k : SyntaxKind) : Bool := s.members.contains k

/-- The members by number, between braces. -/
def text (s : KindSet) : String :=
  "\x7b" ++ ", ".intercalate ((SyntaxKind.all.filter s.contains).map (·.name)) ++ "\x7d"

/-- What an atomic expression can begin with. -/
def atomFirst : KindSet := ⟨[.parenOpen, .id, .angleOpen, .caret, .slash, .bang]⟩

def quantifiers : KindSet := ⟨[.star, .plus, .question]⟩

def anchors : KindSet := ⟨[.caret, .slash, .bang]⟩

end KindSet
end CallChain
