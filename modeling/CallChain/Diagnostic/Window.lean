import CallChain.Text.Width

/-!
# Which part of long lines is shown

The lines of a drawing share one window: a stretch of columns that is shown of each of them. It
leaves out blanks that all marked lines begin with, if there are many, and it holds the marks and
their labels if there is room for them. What does not fit is replaced by an ellipsis.

* A line that is not too wide behind the start of the window is shown to its end.
* Where the start of a line is left out, the ellipsis covers the first columns that are shown, and
  where its end is left out, the last ones.
-/

namespace CallChain

/-- Stands for what is left out. -/
def ellipsis : String := "..."

/-- What the marked lines of a drawing take up, by columns. -/
structure Extent where
  /-- Blanks that all of the lines begin with. -/
  indent : Nat
  /-- Where the leftmost mark begins. -/
  first : Nat
  /-- Where the rightmost mark ends. -/
  last : Nat
  /-- Where the rightmost label ends if labels stand behind their marks. -/
  labelStop : Nat
  /-- Width of the widest line. -/
  width : Nat
deriving DecidableEq, Repr

structure Window where
  /-- How many columns there are for a line. -/
  room : Nat
  start : Nat
  stop : Nat
deriving DecidableEq, Repr

namespace Window

/-- Columns that are left free beside marks and before indented text, for the ellipsis. -/
def padding : Nat := 6

/-- More blanks than these are not shown. -/
def manyBlanks : Nat := 20

/-- So many of them are shown nevertheless. -/
def keptBlanks : Nat := 16

/-- A window as wide as the room. -/
def filling (room start : Nat) : Window := ⟨room, start, start + room⟩

/-- The window of some marked lines. If leaving out blanks is not enough, the first of these is
tried that fits: from the text on, around marks and labels, around the marks; at last there are only
the marks, however wide they are. -/
def ofExtent (room : Nat) (e : Extent) : Window :=
  let indent := e.indent - padding
  let first := e.first - padding
  let last := e.last + padding
  let labelStop := e.labelStop + padding
  let start := if manyBlanks < indent then indent - keptBlanks else 0
  let stop := max e.width start
  if stop - start ≤ room then ⟨room, start, stop⟩
  else if indent ≤ labelStop && labelStop - indent ≤ room then filling room indent
  else if labelStop - first ≤ room then
    filling room (first - (room - (labelStop - first)) / 2)
  else if last - first ≤ room then
    filling room (first - (room - (last - first)) / 5 * 2)
  else ⟨room, first, last⟩

variable (w : Window)

/-- Is the start of every line left out? -/
def cutsStart : Bool := 0 < w.start

/-- Where the part of a line that is shown begins. -/
def startOn (width : Nat) : Nat := min w.start width

/-- Where the part of a line that is shown ends. -/
def stopOn (width : Nat) : Nat :=
  if width - w.start ≤ w.room then width else min w.stop width

theorem startOn_le_stopOn (h : w.start ≤ w.stop) (width : Nat) :
    w.startOn width ≤ w.stopOn width := by
  unfold startOn stopOn
  split <;> omega

end Window
end CallChain
