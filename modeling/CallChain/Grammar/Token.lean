import CallChain.Grammar.Kind
import CallChain.Text.Span

/-!
# Tokens

`tokens` cuts a grammar text into tokens from left to right, each as long as its class allows:

* the eleven symbols, each a token of its own;
* identifiers, `[A-Za-z_][A-Za-z0-9_]*`;
* blanks: runs of spaces, tabulators, carriage returns and line feeds;
* garbage: runs of characters that start none of these.

Every character belongs to exactly one token, so the texts of the tokens put together are the text
itself (`text_tokens`).

Offsets, here and in spans, are natural numbers where the library counts with 32 bits: texts of 2^32
bytes and more are out of scope.
-/

namespace CallChain

/-- A piece of a grammar text. -/
structure Token where
  kind : SyntaxKind
  /-- Byte offset of the first character. -/
  start : Nat
  text : String
deriving DecidableEq, Repr

def Token.span (t : Token) : Span := ⟨t.start, t.start + t.text.utf8ByteSize⟩

/-! ### Character classes -/

def isNameStart (c : Char) : Bool := c.isAlpha || c = '_'

def isNameChar (c : Char) : Bool := isNameStart c || c.isDigit

def isBlank (c : Char) : Bool := c = ' ' || c = '\t' || c = '\r' || c = '\n'

/-- The kind of a symbol that is a token of its own. -/
def symbolKind? (c : Char) : Option SyntaxKind :=
  if c = '(' then some .parenOpen
  else if c = ')' then some .parenClose
  else if c = '<' then some .angleOpen
  else if c = '>' then some .angleClose
  else if c = '|' then some .pipe
  else if c = '*' then some .star
  else if c = '+' then some .plus
  else if c = '?' then some .question
  else if c = '^' then some .caret
  else if c = '/' then some .slash
  else if c = '!' then some .bang
  else none

/-- Does no token but garbage begin with this character? -/
def startsNothing (c : Char) : Bool :=
  (symbolKind? c).isNone && !isNameStart c && !isBlank c

/-! ### Scanning -/

/-- The kind of the token that begins with a character, and which characters continue it. -/
def tokenClass (c : Char) : SyntaxKind × (Char → Bool) :=
  match symbolKind? c with
  | some kind => (kind, fun _ => false)
  | none =>
    if isNameStart c then (.id, isNameChar)
    else if isBlank c then (.whitespace, isBlank)
    else (.garbage, startsNothing)

/-- The tokens of the characters that follow the byte offset `start`. -/
def tokensFrom (start : Nat) (chars : List Char) : List Token :=
  match chars with
  | [] => []
  | c :: rest =>
    let continues := (tokenClass c).2
    let token : Token := ⟨(tokenClass c).1, start, String.ofList (c :: rest.takeWhile continues)⟩
    token :: tokensFrom token.span.stop (rest.dropWhile continues)
termination_by chars.length
decreasing_by
  have := (List.dropWhile_sublist (tokenClass c).2 (l := rest)).length_le
  simp only [List.length_cons]
  omega

/-- The tokens of a text. -/
def tokens (source : String) : List Token := tokensFrom 0 source.toList

theorem text_tokensFrom (start : Nat) (chars : List Char) :
    (tokensFrom start chars).flatMap (·.text.toList) = chars := by
  fun_induction tokensFrom start chars with
  | case1 => rfl
  | case2 start c rest continues token ih =>
    simp only [List.flatMap_cons, ih]
    simp [token]

/-- The texts of the tokens put together are the text. -/
theorem text_tokens (source : String) :
    (tokens source).flatMap (·.text.toList) = source.toList :=
  text_tokensFrom 0 source.toList

end CallChain
