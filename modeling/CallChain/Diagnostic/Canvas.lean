/-!
# A canvas of colored characters

Drawings are made on rows of characters, each in an ink of its own. A later stroke covers an earlier
one, and places that no stroke has touched are blank.

A row is written as plain text, or with control sequences around each run of one ink.
-/

namespace CallChain

/-- What a character is drawn with. -/
inductive Ink where
  | plain
  | strong
  /-- Frame, line numbers, and everything about related places. -/
  | frame
  | error
  | warning
deriving DecidableEq, Repr

/-- What switches an ink on. -/
def Ink.opening : Ink → String
  | plain => ""
  | strong => "\x1b[1m"
  | frame => "\x1b[1m\x1b[94m"
  | error => "\x1b[1m\x1b[91m"
  | warning => "\x1b[1m\x1b[33m"

/-- What switches an ink off. -/
def Ink.closing : Ink → String
  | plain => ""
  | _ => "\x1b[0m"

abbrev Cell := Char × Ink

/-- Characters from left to right. -/
abbrev Strip := List Cell

namespace Strip

/-- A text in one ink. -/
def ofText (ink : Ink) (text : String) : Strip := text.toList.map fun c => (c, ink)

/-- A run of blanks. -/
def blanks (count : Nat) : Strip := List.replicate count (' ', .plain)

/-- Draws over a row from a column on. -/
def draw (row : Strip) (column : Nat) (stroke : Strip) : Strip :=
  row.take column ++ blanks (column - row.length) ++ stroke ++ row.drop (column + stroke.length)

/-- Puts a stroke in the place of the columns from `start` up to `stop`; a row that does not reach
there stays as it is. -/
def replace (row : Strip) (start stop : Nat) (stroke : Strip) : Strip :=
  if start < stop && stop ≤ row.length then row.take start ++ stroke ++ row.drop stop else row

/-- Splits a row into runs of one ink. -/
def runs : Strip → List (Ink × List Char)
  | [] => []
  | (c, ink) :: cells =>
    match runs cells with
    | (next, chars) :: rest =>
      if next = ink then (ink, c :: chars) :: rest else (ink, [c]) :: (next, chars) :: rest
    | [] => [(ink, [c])]

/-- A run between the control sequences of its ink. -/
def runText (isColored : Bool) (run : Ink × List Char) : String :=
  let text := String.ofList run.2
  if isColored then run.1.opening ++ text ++ run.1.closing else text

/-- The written row. -/
def text (isColored : Bool) (row : Strip) : String :=
  String.join (row.runs.map (runText isColored))

end Strip

/-- Strips from top to bottom. -/
abbrev Canvas := List Strip

namespace Canvas

/-- Draws over one row of a canvas that has enough of them. -/
def draw (canvas : Canvas) (row column : Nat) (stroke : Strip) : Canvas :=
  canvas.modify row (·.draw column stroke)

/-- Draws one character over the first `height` rows. -/
def drawDown (canvas : Canvas) (height column : Nat) (cell : Cell) : Canvas :=
  (List.range height).foldl (fun canvas row => canvas.draw row column [cell]) canvas

end Canvas
end CallChain
