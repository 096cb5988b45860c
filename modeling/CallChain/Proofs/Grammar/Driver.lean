import CallChain.Proofs.Grammar.Building

/-!
# The reader as the driver of a tree builder

`parse` answers trees. The same reading can be told as a sequence of calls to a builder of trees.
This reader moves forward over one list of tokens, blanks included: it keeps blanks in a buffer
until the next node or word, counts how often it looks before it takes a word, and remembers that
the nesting limit has been hit while it closes the nodes that are open.

A run of it ends with the calls that have been made, unless something happens that must not
(`DriverMishap`).

* `Driver.run`: the reading of a text.
-/

namespace CallChain

/-- What must not happen to a reader. -/
inductive DriverMishap where
  /-- A look brings the count of those that are left to zero. -/
  | stuck
  /-- A word is to be taken at the end of the text. -/
  | bumpAtEnd
  /-- A loop or a recursion does not end in time. -/
  | endless
deriving DecidableEq, Repr

/-! ### States -/

structure DriverState where
  /-- What has not been passed yet, blanks included. -/
  ahead : List Token
  /-- Blanks that have been passed and not been handed to the builder. -/
  buffer : List Token
  calls : List BuilderCall
  reports : Diagnostics
  /-- How many groups and quantifiers have been entered and not been left. -/
  depth : Nat
  /-- Where the last diagnostic was reported. -/
  lastReport : Option Nat
  /-- Counts the looks down. -/
  fuel : Nat
  /-- Has the nesting limit been hit? -/
  isFatal : Bool

namespace DriverState

variable (t : DriverState)

def ofTokens (ts : List Token) : DriverState where
  ahead := ts
  buffer := []
  calls := []
  reports := []
  depth := 0
  lastReport := none
  fuel := lookLimit
  isFatal := false

/-- Passes the blanks before the next word. -/
def skip : DriverState :=
  { t with
    ahead := t.ahead.dropWhile (·.kind.isTrivia)
    buffer := t.buffer ++ t.ahead.takeWhile (·.kind.isTrivia) }

/-- Hands the buffered blanks to the builder. -/
def drain : DriverState := { t with buffer := [], calls := t.calls ++ t.buffer.map .token }

def push (call : BuilderCall) : DriverState := { t with calls := t.calls ++ [call] }

/-- All looks are allowed again on entering a level, and on leaving it. -/
def entered : DriverState := { t with depth := t.depth + 1, fuel := lookLimit }

def left : DriverState := { t with depth := t.depth - 1, fuel := lookLimit }

end DriverState

/-- A reader that drives a builder. -/
abbrev Driver := StateT DriverState (Except DriverMishap)

namespace Driver

open CallChain.Parser (Input)

/-! ### Steps -/

def skip : Driver Unit := modify DriverState.skip

def drain : Driver Unit := modify DriverState.drain

def call (c : BuilderCall) : Driver Unit := modify (·.push c)

def refill : Driver Unit := modify ({ · with fuel := lookLimit })

def isFatal : Driver Bool := return (← get).isFatal

/-- Counts a look. -/
def spend : Driver Unit := fun t =>
  if t.fuel ≤ 1 then .error .stuck else .ok ((), { t with fuel := t.fuel - 1 })

/-- The kind of the next word, which is counted as a look. -/
def current : Driver SyntaxKind := do
  skip
  spend
  return ((← get).ahead.head?.map (·.kind)).getD .error

def atEnd : Driver Bool := do
  skip
  return (← get).ahead.isEmpty

/-- Is there a next word, and does its kind satisfy a test? -/
def currently (test : SyntaxKind → Bool) : Driver Bool := do
  if ← atEnd then
    return false
  else
    return test (← current)

def startNode (kind : SyntaxKind) : Driver Unit := do
  drain
  call (.start kind)

def checkpoint : Driver Nat := do
  skip
  drain
  let count := (← get).calls.length
  call .checkpoint
  return count

/-- Takes the first of some tokens, which are the next ones. -/
def take : List Token → Driver Unit
  | [] => throw .bumpAtEnd
  | token :: ahead => do
    refill
    drain
    call (.token token)
    modify ({ · with ahead })

def bump : Driver Unit := do
  skip
  take (← get).ahead

/-- Takes the next word if it is of a kind. -/
def eat (kind : SyntaxKind) : Driver Bool := do
  if ← currently (· = kind) then
    bump
    return true
  else
    return false

/-- Enters a level, or notes that the limit has been hit. -/
def enter (limit : Nat) : Driver Bool := fun t =>
  if limit ≤ t.depth then .ok (false, { t with isFatal := true })
  else .ok (true, t.entered)

def leave : Driver Unit := modify DriverState.left

section Productions

variable (input : Input) (limit : Nat)

def currentSpan : Driver Span := do
  skip
  return ((← get).ahead.head?.map (·.span)).getD (.emptyAt input.stop)

/-- Reports a diagnostic about the next word, unless the last one was reported there, too. -/
def report (kind : DiagnosticKind) (related : List Related) : Driver Unit := do
  let span ← currentSpan input
  modify fun t =>
    if t.lastReport = some span.start then t
    else
      let detail := t.ahead.head?.map (·.text)
      { t with
        lastReport := some span.start
        reports := t.reports ++ [⟨kind, input.source, span, detail, related⟩] }

/-- Reports the next word and sets it aside. -/
def setAside : Driver Unit := do
  report input .unexpectedToken []
  if !(← atEnd) then
    startNode .error
    bump
    call .finish

/-! ### Productions -/

def leaf (kind : SyntaxKind) : Driver Unit := do
  startNode kind
  bump
  call .finish

def reference : Driver Unit := do
  startNode .subExprRef
  let opening ← currentSpan input
  bump
  if !(← eat .id) then
    report input .expectedSubExpressionName []
  if !(← eat .angleClose) then
    report input .unclosedSubExpressionRef [⟨"reference started here", opening⟩]
  call .finish

/-- What a group ends with. -/
def closeGroup (opening : Span) : Driver Unit := do
  if !(← eat .parenClose) && !(← isFatal) then
    report input .unclosedGroup [⟨"group started here", opening⟩]
  call .finish
  leave

def group (inside : Driver Unit) : Driver Unit := do
  if ← enter limit then
    startNode .group
    let opening ← currentSpan input
    bump
    if ← currently (· = .parenClose) then
      report input .expectedExpression []
    else if !(← atEnd) then
      inside
    closeGroup input opening

def atomic (inside : Driver Unit) : Driver Unit := do
  match ← current with
  | .parenOpen => group input limit inside
  | .angleOpen => reference input
  | .id => leaf .ident
  | kind =>
    if KindSet.anchors.contains kind then leaf .anchor
    else report input .expectedExpression []

/-- The quantifiers behind an operand. Each of them enters a level, and the levels are left behind
the last one. `fuel` bounds their number. -/
def quantifiers (checkpoint : Nat) (fuel : Nat) : Driver Unit := do
  if (← currently KindSet.quantifiers.contains) && !(← isFatal) then
    match fuel with
    | 0 => throw .endless
    | fuel + 1 =>
      if ← enter limit then
        call (.startAt checkpoint .quantified)
        bump
        call .finish
        quantifiers checkpoint fuel
        leave

def modified (inside : Driver Unit) : Driver Unit := do
  let before ← checkpoint
  atomic input limit inside
  quantifiers limit before (← get).ahead.length

def factors (inside : Driver Unit) (fuel : Nat) : Driver Unit := do
  if (← currently KindSet.atomFirst.contains) && !(← isFatal) then
    match fuel with
    | 0 => throw .endless
    | fuel + 1 =>
      modified input limit inside
      factors inside fuel

def concat (inside : Driver Unit) : Driver Unit := do
  if ← currently KindSet.atomFirst.contains then
    let before ← checkpoint
    modified input limit inside
    if (← currently KindSet.atomFirst.contains) && !(← isFatal) then
      call (.startAt before .concat)
      factors input limit inside (← get).ahead.length
      call .finish
  else
    report input .expectedExpression []

def branches (inside : Driver Unit) (fuel : Nat) : Driver Unit := do
  if ← eat .pipe then
    match fuel with
    | 0 => throw .endless
    | fuel + 1 =>
      concat input limit inside
      branches inside fuel

def union (inside : Driver Unit) : Driver Unit := do
  let before ← checkpoint
  concat input limit inside
  if ← currently (· = .pipe) then
    call (.startAt before .alt)
    branches input limit inside (← get).ahead.length
    call .finish

/-- A regex with groups up to a number of levels. -/
def regex : Nat → Driver Unit
  | 0 => union input limit (throw .endless)
  | levels + 1 => union input limit (regex levels)

def leftovers (fuel : Nat) : Driver Unit := do
  if !(← atEnd) && !(← isFatal) then
    match fuel with
    | 0 => throw .endless
    | fuel + 1 =>
      setAside input
      if ← currently KindSet.atomFirst.contains then
        regex input limit limit
      leftovers fuel

def root : Driver Unit := do
  startNode .root
  if ← atEnd then
    report input .expectedExpression []
  else
    regex input limit limit
    leftovers input limit (← get).ahead.length
  skip
  drain
  call .finish

end Productions

/-- The reading of a whole text. Blanks that were still buffered at the end would be handed to the
builder behind the tree. -/
def run (text : String) (source : SourceId) (limit : Nat) : Except DriverMishap DriverState :=
  let reading : Driver Unit := do
    root ⟨source, text.utf8ByteSize⟩ limit
    drain
  match reading (.ofTokens (tokens text)) with
  | .ok (_, t) => .ok t
  | .error mishap => .error mishap

end Driver

end CallChain
