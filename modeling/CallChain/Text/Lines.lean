import CallChain.Text.Position

/-!
# Lines of a text

`Text.lines` divides a text at its line feeds. A line feed at the very end opens no further line, a
carriage return right before a line feed belongs to the line break, and the empty text has one empty
line.

`Line.column` counts the characters before an offset. A line break counts as one character, so that
the place after the last one of a text is told apart from the place before it.
-/

namespace CallChain.Text

/-- One line of a text. -/
structure Line where
  /-- Counted from one. -/
  number : Nat
  /-- Byte offset of the first character. -/
  start : Nat
  /-- Without the line break. -/
  chars : List Char
  /-- Byte offset behind the line break. -/
  next : Nat
deriving DecidableEq, Repr

/-- A line without the carriage return at its end. -/
def withoutReturn (chars : List Char) : List Char :=
  if chars.getLast? = some '\r' then chars.dropLast else chars

/-- The lines of the characters that follow the byte offset `start`. -/
def linesFrom (number start : Nat) (chars : List Char) : List Line :=
  let line := chars.takeWhile (· ≠ '\n')
  match h : chars.dropWhile (· ≠ '\n') with
  | [] => [⟨number, start, line, start + byteSize line⟩]
  | _ :: rest =>
    let next := start + byteSize line + 1
    let first : Line := ⟨number, start, withoutReturn line, next⟩
    if rest.isEmpty then [first] else first :: linesFrom (number + 1) next rest
termination_by chars.length
decreasing_by
  have := (List.dropWhile_sublist (· ≠ '\n') (l := chars)).length_le
  rw [h, List.length_cons] at this
  omega

def lines (text : String) : List Line := linesFrom 1 0 text.toList

/-- The characters that lie before an offset, which counts from the first of them. -/
def beforeOffset (offset : Nat) : List Char → List Char
  | [] => []
  | c :: chars =>
    if c.utf8Size ≤ offset then c :: beforeOffset (offset - c.utf8Size) chars else []

namespace Line

variable (l : Line)

def holds (offset : Nat) : Bool := l.start ≤ offset && offset < l.next

/-- The characters of the line before an offset of the text. -/
def before (offset : Nat) : List Char := beforeOffset (offset - l.start) l.chars

/-- How many characters lie before an offset of the text. -/
def column (offset : Nat) : Nat :=
  (l.before offset).length + if byteSize l.chars < offset - l.start then 1 else 0

end Line

/-- The line that an offset lies on; the last one for an offset behind the text. -/
def lineAt (lines : List Line) (offset : Nat) : Option Line :=
  (lines.find? (·.holds offset)).or lines.getLast?

end CallChain.Text
