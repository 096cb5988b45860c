import CallChain.Diagnostic
import CallChain.Diagnostic.Canvas
import CallChain.Diagnostic.Window
import CallChain.Sorting
import CallChain.Text.Lines

/-!
# Drawing diagnostics

A diagnostic is drawn under the lines that it points at:

```text
error: missing closing `)`
 --> <syntax>:1:5
  |
1 | (a b
  | -   ^ missing closing `)`
  | |
  | group started here
```

The place of the diagnostic is marked by carets, related places by dashes. Each mark has a label. A
label stands behind its mark if the marks to the right leave room for it; otherwise it hangs below,
under a line that leads down from the mark.
-/

namespace CallChain

namespace Drawing

/-! ### Characters -/

/-- What is drawn for a character of a text. Tabulators are four blanks wide, other controls but the
line feed have pictures, and what would turn the direction of writing is not let through. -/
def picture (c : Char) : List Char :=
  let n := c.toNat
  if c = '\t' then [' ', ' ', ' ', ' ']
  else if c = '\n' then [c]
  else if n < 0x20 then [Char.ofNat (0x2400 + n)]
  else if n = 0x7f then [Char.ofNat 0x2421]
  else if n = 0x200d then []
  else if (0x202a ≤ n && n ≤ 0x202e) || (0x2066 ≤ n && n ≤ 0x2069) then [Char.ofNat 0xfffd]
  else [c]

def pictures (chars : List Char) : List Char := chars.flatMap picture

/-- How many columns the drawing of some characters takes. -/
def drawnWidth (chars : List Char) : Nat := Text.width (pictures chars)

/-- Characters that a line may be indented by. -/
def isSpace (c : Char) : Bool :=
  let n := c.toNat
  (0x09 ≤ n && n ≤ 0x0d) || n = 0x20 || n = 0x85 || n = 0xa0 || n = 0x1680 ||
    (0x2000 ≤ n && n ≤ 0x200a) || n = 0x2028 || n = 0x2029 || n = 0x202f || n = 0x205f || n = 0x3000

/-! ### Marks -/

/-- A marked stretch of a line, by columns. Places before and behind the line break have one column,
but are told apart by the characters before them. -/
structure Mark where
  start : Nat
  stop : Nat
  /-- How many characters lie before the stretch; the line break counts as one. -/
  startChar : Nat
  /-- How many characters lie before its end; the line break counts only for an empty stretch, which
  ends where it begins. -/
  stopChar : Nat
  isPrimary : Bool
  label : String
deriving DecidableEq, Repr

namespace Mark

variable (m : Mark)

def width : Nat := m.stop - m.start

def isSameStretch (other : Mark) : Bool :=
  m.startChar = other.startChar && m.stopChar = other.stopChar

/-- A label without text counts as none. -/
def hasLabel : Bool := !m.label.isEmpty

/-- Does a mark that is continued by `padding` columns meet another one? -/
def meets (padding : Nat) (other : Mark) : Bool :=
  (other.start ≤ m.start && m.start < other.stop) ||
    (m.start ≤ other.start && other.start < m.stop + padding)

/-- The mark with its label and the blanks around it. -/
def reachOfLabel : Nat := m.label.utf8ByteSize + 2

/-- Where the label ends if it stands behind the mark. -/
def labelStop : Nat := m.stop + drawnWidth m.label.toList + 1

def ink (severity : Ink) : Ink := if m.isPrimary then severity else .frame

def sign : Char := if m.isPrimary then '^' else '-'

end Mark

/-- Does a mark begin right of another one, or where that begins? -/
def isRightOf (m n : Mark) : Bool := n.startChar ≤ m.startChar

/-- Does a mark to the left, `n`, keep the label of `m` from standing behind `m`? A mark of the same
stretch without a label does not. -/
def pushesDown (m n : Mark) : Bool :=
  m.hasLabel && n.meets 0 m && !(n.isSameStretch m && !n.hasLabel)

/-- Does the label of a mark to the left, `n`, have to hang below the label of `m`, or below `m`
itself if that is as high as can be? -/
def hangsBelow (m : Mark) (isHighest : Bool) (n : Mark) : Bool :=
  n.hasLabel && n.meets n.reachOfLabel m && (m.hasLabel || (isHighest && n.stopChar ≤ m.stopChar))

/-- The depths at which the labels of some marks hang, given from right to left; depth zero is
behind the mark. -/
def labelDepths (depth : Nat) : List Mark → List (Nat × Mark)
  | [] => []
  | m :: rest =>
    let own := if depth = 0 && rest.any (pushesDown m) then 1 else depth
    let next := if rest.any (hangsBelow m (own = 0)) then own + 1 else own
    (own, m) :: labelDepths next rest

/-- Is a mark drawn before another one, which may cover it? Narrow marks cover wide ones, and of two
that are equally wide the primary one covers the other. -/
def coveredFirst (m n : Mark) : Bool :=
  n.width < m.width || (n.width = m.width && (!m.isPrimary || n.isPrimary))

/-! ### Frame -/

/-- What all lines of a drawing share. -/
structure Frame where
  /-- Width of the widest line number. -/
  numberWidth : Nat
  window : Window

namespace Frame

/-- A gutter, which holds a line number or blanks. -/
def gutter (content : Strip) : Strip := content ++ Strip.blanks 1 ++ Strip.ofText .frame "|"

def emptyGutter (numberWidth : Nat) : Strip := gutter (Strip.blanks numberWidth)

/-- The blanks in front of a narrow number belong to it. -/
def numberGutter (numberWidth number : Nat) : Strip :=
  let digits := (toString number).toList
  gutter (Strip.ofText .frame
    (String.ofList (List.replicate (numberWidth - digits.length) ' ' ++ digits)))

/-- The column where lines begin. -/
def textColumn (numberWidth : Nat) : Nat := numberWidth + 3

variable (f : Frame)

/-- The part of a line that is shown, and how many of its columns are left out at its start. -/
def shown (chars : List Char) : List Char × Nat :=
  let width := Text.width chars
  let start := f.window.startOn width
  let (dropped, rest) := Text.dropColumns start chars
  (Text.takeColumns (f.window.stopOn width - start) rest, max start dropped)

/-- The text of a line, the ends that are left out replaced. -/
def lineText (chars : List Char) : Strip :=
  let (code, _) := f.shown chars
  let (taken, rest) :=
    if f.window.cutsStart then Text.dropColumns ellipsis.length code else (0, code)
  let opening := if f.window.cutsStart then Strip.ofText .frame ellipsis else []
  let row := Strip.draw opening taken (.ofText .plain (String.ofList rest))
  if f.window.stopOn (Text.width chars) < Text.width chars then
    let covered := code.length - (Text.dropColumns ellipsis.length code.reverse).2.length
    row.draw (taken + rest.length - covered) (.ofText .frame ellipsis)
  else
    row

/-- A line and its number. -/
def lineRow (line : Text.Line) : Strip :=
  let content := f.lineText (pictures line.chars)
  numberGutter f.numberWidth line.number ++
    if content.isEmpty then [] else Strip.blanks 1 ++ content

/-- The column of a mark below a line, of which `hidden` columns are left out at the start. -/
def markColumn (hidden column : Nat) : Nat := textColumn f.numberWidth + column - hidden

/-- The column of a label. -/
def labelColumn (hidden column : Nat) : Nat := textColumn f.numberWidth + (column - hidden)

/-- The row of a label, counted from the row of the marks, and its column. -/
def labelPlace (hidden : Nat) (entry : Nat × Mark) : Nat × Nat :=
  if entry.1 = 0 then (0, f.labelColumn hidden (entry.2.stop + 1))
  else (entry.1 + 1, f.labelColumn hidden entry.2.start)

/-- The rows below a line: marks, lines that lead down, and labels. -/
def markRows (severity : Ink) (hidden : Nat) (marks : List Mark) : Canvas :=
  let placed := labelDepths 0 (sortBy isRightOf marks)
  let deepest := (placed.map (·.1)).foldl max 0
  let blank : Canvas :=
    List.replicate (if deepest = 0 then 1 else deepest + 2) (emptyGutter f.numberWidth)
  let leading := placed.foldl (fun canvas (depth, m) =>
    if depth = 0 || !m.hasLabel then canvas
    else canvas.drawDown (depth + 1) (f.markColumn hidden m.start) ('|', m.ink severity)) blank
  let labelled := placed.foldl (fun canvas (depth, m) =>
    let (row, column) := f.labelPlace hidden (depth, m)
    if m.hasLabel then canvas.draw row column (.ofText (m.ink severity) m.label)
    else canvas) leading
  (sortBy coveredFirst marks).foldl (fun canvas m =>
    canvas.draw 0 (f.markColumn hidden m.start)
      (List.replicate m.width (m.sign, m.ink severity))) labelled

/-- How much is kept at either end of a mark that is shortened. -/
def keptEnd : Nat := max (f.window.room / 3) 5

/-- Leaves out the middle of a mark that is more than twice as wide as there is room, in the line
and below it. The columns are those of the full rows; a row that has become too short for them,
since the middle of another mark was left out, stays as it is. -/
def shorten (hidden : Nat) (rows : Canvas) (m : Mark) : Canvas :=
  if 2 * f.window.room < m.width && 10 < m.width then
    let start := f.markColumn hidden (m.start + f.keptEnd)
    let stop := f.markColumn hidden (m.stop - f.keptEnd)
    rows.mapIdx fun k row =>
      if k < 2 then row.replace start stop (.ofText .frame ellipsis) else row
  else
    rows

/-- A line with the marks on it, which are shortened in the order in which they were drawn. -/
def markedLine (severity : Ink) (line : Text.Line) (marks : List Mark) : Canvas :=
  let hidden := (f.shown (pictures line.chars)).2
  let rows := f.lineRow line :: f.markRows severity hidden marks
  (sortBy coveredFirst marks).foldl (f.shorten hidden) rows

/-- What stands between two marked lines: the line between them, or dots for several. -/
def between (lines : List Text.Line) (first second : Nat) : Canvas :=
  if second = first + 2 then (lines.filter (·.number = first + 1)).map f.lineRow
  else if first + 2 < second then [.ofText .frame ellipsis]
  else []

/-- The marked lines from top to bottom. -/
def markedLines (severity : Ink) (lines : List Text.Line) (marks : Text.Line → List Mark) :
    List Text.Line → Canvas
  | [] => []
  | [line] => f.markedLine severity line (marks line)
  | line :: next :: rest =>
    f.markedLine severity line (marks line) ++ f.between lines line.number next.number ++
      markedLines severity lines marks (next :: rest)

end Frame

/-! ### Places -/

/-- A place in a text as it is drawn. -/
structure Placed where
  line : Text.Line
  mark : Mark

/-- Where a span is drawn, an empty one as one column. -/
def place? (lines : List Text.Line) (size : Nat) (isPrimary : Bool) (label : String) (span : Span) :
    Option Placed :=
  let stop := if span.start = span.stop then min (span.start + 1) size else span.stop
  (Text.lineAt lines span.start).map fun line =>
    let column (offset : Nat) : Nat := drawnWidth (line.before offset)
    let start := column span.start
    let startChar := line.column span.start
    let stopChar := if stop = span.start then startChar else (line.before stop).length
    ⟨line, ⟨start, max (start + 1) (column stop), startChar, stopChar, isPrimary, label⟩⟩

/-- The blanks that a line begins with; none for a blank line, which does not count. -/
def indentOf (line : Text.Line) : Option Nat :=
  if line.chars.all isSpace then none
  else
    let widths := (line.chars.takeWhile isSpace).map fun c => if c = '\t' then 4 else 1
    some (widths.foldr (· + ·) 0)

/-- The least of some numbers, zero if there are none. -/
def least (numbers : List Nat) : Nat := numbers.min?.getD 0

/-- The greatest of some numbers, zero if there are none. -/
def greatest (numbers : List Nat) : Nat := numbers.max?.getD 0

/-- What some marked lines take up. Blanks that a mark covers are no indent. -/
def extentOf (lines : List Text.Line) (marks : List Mark) : Extent where
  indent := min (least (lines.filterMap indentOf)) (least (marks.map (·.start)))
  first := least (marks.map (·.start))
  last := greatest (marks.map (·.stop))
  labelStop := greatest (marks.map (·.labelStop))
  width := greatest (lines.map fun line => drawnWidth line.chars)

/-- How many columns a drawing has. -/
def totalWidth : Nat := 140

end Drawing

/-! ### Diagnostics -/

open Drawing

def Severity.ink : Severity → Ink
  | .error => .error
  | .warning => .warning

namespace Diagnostic

variable (d : Diagnostic)

/-- The diagnostic in severity and message. Further lines of the message are indented. -/
def title : Canvas :=
  let indent := d.severity.word.length + 2
  match (pictures d.message.toList).splitOn '\n' with
  | [] => []
  | first :: rest =>
    (Strip.ofText d.severity.ink d.severity.word ++
      Strip.ofText .strong (": " ++ String.ofList first)) ::
    rest.map fun chars => Strip.blanks indent ++ Strip.ofText .strong (String.ofList chars)

/-- Where the diagnostic is, for a reader who has the file open. -/
def location (width : Nat) (name : String) (line : Text.Line) : Strip :=
  Strip.blanks width ++ Strip.ofText .frame "--> " ++
    Strip.ofText .plain (name ++ ":" ++ toString line.number ++ ":" ++
      toString (line.column d.span.start + 1))

/-- The drawing of a diagnostic. -/
def drawing (sources : SourceMap) : Canvas :=
  let text := sources.content d.source
  let lines := Text.lines text
  let size := text.utf8ByteSize
  let own := place? lines size true d.message d.span
  let related := d.related.filterMap fun r => place? lines size false r.message r.span
  match own with
  | none => d.title
  | some own =>
    let placed := own :: related
    let marks (line : Text.Line) : List Mark :=
      (placed.filter (·.line.number = line.number)).map (·.mark)
    let marked := lines.filter fun line => !(marks line).isEmpty
    let width := greatest (marked.map fun line => (toString line.number).length)
    let window :=
      Window.ofExtent (totalWidth - Frame.textColumn width) (extentOf marked (placed.map (·.mark)))
    d.title ++
      [d.location width (sources.displayName d.source) own.line, Frame.emptyGutter width] ++
      Frame.markedLines ⟨width, window⟩ d.severity.ink lines marks marked

end Diagnostic

/-- The drawings of all diagnostics that are worth showing, one below the other. -/
def Diagnostics.render (ds : Diagnostics) (sources : SourceMap) (isColored : Bool) : String :=
  "\n".intercalate
    (((Diagnostics.filtered ds).flatMap (·.drawing sources)).map (Strip.text isColored))

end CallChain
