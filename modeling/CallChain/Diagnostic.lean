import CallChain.Diagnostic.Kind
import CallChain.Source
import CallChain.Text.Span

/-!
# Diagnostics

A diagnostic points at a stretch of one source. It may carry the text it is about, which the
message then names, and it may point back at earlier stretches of the same source.

`filtered` drops what an earlier problem explains: of the diagnostics that start at one place of one
source, those of a kind that is suppressed by the kind of another.
-/

namespace CallChain

/-- A further stretch of the same source, and what it has to do with the diagnostic. -/
structure Related where
  message : String
  span : Span
deriving DecidableEq, Repr

structure Diagnostic where
  kind : DiagnosticKind
  source : SourceId
  span : Span
  /-- The offending name or text, if the diagnostic is about one. -/
  detail : Option String
  related : List Related
deriving DecidableEq, Repr

namespace Diagnostic

variable (d : Diagnostic)

def message : String := d.kind.message d.detail

def severity : Severity := d.kind.severity

def isError : Bool := d.severity = .error

def isWarning : Bool := d.severity = .warning

/-- A span as two offsets. -/
def spanText (s : Span) : String := toString s.start ++ ".." ++ toString s.stop

def relatedText (r : Related) : String :=
  " (related: " ++ r.message ++ " at " ++ spanText r.span ++ ")"

/-- The diagnostic on one line, without its source. -/
def line : String :=
  d.severity.word ++ " at " ++ spanText d.span ++ ": " ++ d.message ++
    String.join (d.related.map relatedText)

end Diagnostic

/-- Diagnostics in the order in which they were reported. -/
abbrev Diagnostics := List Diagnostic

namespace Diagnostics

variable (ds : Diagnostics)

def hasErrors : Bool := ds.any (·.isError)

def hasWarnings : Bool := ds.any (·.isWarning)

def errorCount : Nat := ds.countP (·.isError)

def warningCount : Nat := ds.countP (·.isWarning)

def ofKind (kind : DiagnosticKind) : List Diagnostic := ds.filter (·.kind = kind)

/-! ### Filtering -/

/-- Do two diagnostics compete for one place, and is the second the lesser one? -/
def suppresses (a b : Diagnostic) : Bool :=
  a.source = b.source && a.span.start = b.span.start && a.kind.suppresses b.kind

/-- Marks `b`, the diagnostic at `j`, if `a`, the one at `i`, suppresses it and neither of the two
is marked yet. -/
def mark (a : Diagnostic) (i : Nat) (marks : Array Bool) (entry : Diagnostic × Nat) : Array Bool :=
  let (b, j) := entry
  if i = j || marks.getD i false || marks.getD j false then marks
  else if suppresses a b then marks.setIfInBounds j true
  else marks

/-- The marks after every pair has been compared, first diagnostic outermost. -/
def marks : Array Bool :=
  ds.zipIdx.foldl (fun marks (a, i) => ds.zipIdx.foldl (mark a i) marks)
    (Array.replicate ds.length false)

/-- The diagnostics without those that another one at the same place explains. -/
def filtered : List Diagnostic :=
  (ds.zip (marks ds).toList).filterMap fun (d, isMarked) => if isMarked then none else some d

/-- One line per remaining diagnostic, each after the name of its source. -/
def plain (sources : SourceMap) : String :=
  String.join ((filtered ds).map fun d =>
    sources.displayName d.source ++ ": " ++ d.line ++ "\n")

end Diagnostics
end CallChain
