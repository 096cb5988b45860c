/-!
# Lines and bytes

A position counts line feeds and bytes: the line is one more than the number of line feeds before an
offset, the column the number of bytes between the last of them and the offset.
-/

namespace CallChain.Text

/-- Length in UTF-8. -/
def byteSize (chars : List Char) : Nat := (chars.map Char.utf8Size).foldr (· + ·) 0

/-- The position of an offset that is not before `here`, the offset of the first of some characters
on a line that starts at `lineStart`. -/
def positionFrom (line lineStart here offset : Nat) : List Char → Nat × Nat
  | [] => (line, offset - lineStart)
  | c :: chars =>
    let next := here + c.utf8Size
    if offset ≤ here then (line, offset - lineStart)
    else if c = '\n' then positionFrom (line + 1) next next offset chars
    else positionFrom line lineStart next offset chars

/-- Line and column of a byte offset. -/
def position (text : String) (offset : Nat) : Nat × Nat :=
  positionFrom 1 0 0 offset text.toList

end CallChain.Text
