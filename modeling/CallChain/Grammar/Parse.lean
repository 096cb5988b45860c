import CallChain.Diagnostic
import CallChain.Fault
import CallChain.Grammar.Tree

/-!
# Reading a grammar text into a tree

```text
regex    ::= union
union    ::= concat ('|' concat)*
concat   ::= modified modified*
modified ::= modified ('?' | '*' | '+') | atomic
atomic   ::= '(' regex ')' | identifier | '<' identifier '>' | '^' | '/' | '!'
```

Reading never gives up at a mistake: it reports a diagnostic, goes on with the next production, and
keeps every token, so that the leaves of the tree are the tokens of the text. At most one diagnostic
is reported in a row at one place.

Nodes for alternatives and sequences are made only where there is more than one operand; a
quantifier wraps what it follows. Blanks before a token are placed when the next node is about to be
opened or the token itself is taken, and blanks at the end close the root.

Groups and quantifiers may be nested to a limit. `room` is what is left of it: a group is read with
one less inside, and each of several quantifiers in a row takes one more. A text that needs more
room has no tree.

Two guards never act on any text and make the reader total: a production may look at the next token
only so often before it takes one (`lookLimit`), and it takes a token only if there is one.
-/

namespace CallChain

/-- Why a text has no tree. -/
inductive Halt where
  | nestingLimit
  | fault (f : Fault)
deriving DecidableEq, Repr

/-- A token that the grammar sees, and the blanks that follow it. -/
structure Word where
  token : Token
  blanks : List Token
deriving DecidableEq, Repr

/-- How often the next token may be looked at before one is taken. -/
def lookLimit : Nat := 256

structure ParseState where
  /-- Blanks that have been passed and not been placed in the tree. -/
  pending : List Token
  ahead : List Word
  /-- Number of words taken. -/
  taken : Nat
  looks : Nat
  /-- Where the last diagnostic was reported. -/
  lastReport : Option Nat
  reports : Diagnostics
deriving DecidableEq, Repr

/-- What is read, and the reading position after it. -/
abbrev Parser := StateT ParseState (Except Halt)

/-- A run of trees side by side. -/
abbrev Forest := List Tree

/-! ### Words -/

/-- The blanks before the first word, and the words of a token list. -/
def splitWords : List Token → List Token × List Word
  | [] => ([], [])
  | token :: rest =>
    let (blanks, words) := splitWords rest
    if token.kind.isTrivia then (token :: blanks, words) else ([], ⟨token, blanks⟩ :: words)

def ParseState.ofTokens (ts : List Token) : ParseState where
  pending := (splitWords ts).1
  ahead := (splitWords ts).2
  taken := 0
  looks := lookLimit
  lastReport := none
  reports := []

namespace Parser

/-! ### Looking -/

def atEnd : Parser Bool := return (← get).ahead.isEmpty

/-- The kind of the next word; none at the end of the text. -/
def look : Parser (Option SyntaxKind) := fun s =>
  match s.ahead with
  | [] => .ok (none, s)
  | word :: _ =>
    match s.looks with
    | 0 => .error (.fault (.stuckParser s.taken))
    | looks + 1 => .ok (some word.token.kind, { s with looks })

def nextIs (kind : SyntaxKind) : Parser Bool := return (← look) = some kind

def nextIn (kinds : KindSet) : Parser Bool := return (← look).any kinds.contains

/-! ### Taking -/

/-- Allows the full number of looks again. -/
def refill : Parser Unit := modify fun s => { s with looks := lookLimit }

/-- Places the pending blanks. -/
def flush : Parser Forest := fun s => .ok (s.pending.map .leaf, { s with pending := [] })

/-- Takes the next word, the pending blanks before it. -/
def bump : Parser Forest := fun s =>
  match s.ahead with
  | [] => .error (.fault .readPastEnd)
  | word :: ahead =>
    .ok ((s.pending ++ [word.token]).map .leaf,
      { s with pending := word.blanks, ahead, taken := s.taken + 1, looks := lookLimit })

/-- Takes the next word if it is of a kind. -/
def eat? (kind : SyntaxKind) : Parser (Option Forest) := do
  if ← nextIs kind then
    return some (← bump)
  return none

/-! ### Reporting -/

/-- The text that is read: its handle and its length in bytes. -/
structure Input where
  source : SourceId
  stop : Nat

/-- The span of the next word, or the empty one at the end of the text. -/
def nextSpan (input : Input) : Parser Span :=
  return (((← get).ahead.head?).map (·.token.span)).getD (.emptyAt input.stop)

/-- Reports a diagnostic about the next word, unless the last one was reported there, too. -/
def report (input : Input) (kind : DiagnosticKind) (related : List Related) : Parser Unit := do
  let span ← nextSpan input
  modify fun s =>
    if s.lastReport = some span.start then s
    else
      let detail := s.ahead.head?.map (·.token.text)
      { s with
        lastReport := some span.start
        reports := s.reports ++ [⟨kind, input.source, span, detail, related⟩] }

/-- Reports the next word and sets it aside. -/
def setAside (input : Input) : Parser Forest := do
  report input .unexpectedToken []
  if ← atEnd then
    return []
  let before ← flush
  return before ++ [.node .error (← bump)]

/-! ### Productions -/

section Productions

variable (input : Input)

/-- A node around the next word. -/
def leaf (kind : SyntaxKind) : Parser Forest :=
  return [.node kind (← bump)]

/-- `<` identifier `>` -/
def reference : Parser Forest := do
  let opening ← nextSpan input
  let bracket ← bump
  let name ← eat? .id
  if name.isNone then
    report input .expectedSubExpressionName []
  let closing ← eat? .angleClose
  if closing.isNone then
    report input .unclosedSubExpressionRef [⟨"reference started here", opening⟩]
  return [.node .subExprRef (bracket ++ name.getD [] ++ closing.getD [])]

/-- `(` regex `)`, where `inside` reads the regex; without `inside` the nesting is too deep. -/
def group (inside : Option (Parser Forest)) : Parser Forest := do
  match inside with
  | none => throw .nestingLimit
  | some inside =>
    refill
    let opening ← nextSpan input
    let bracket ← bump
    let body ←
      if ← nextIs .parenClose then do
        report input .expectedExpression []
        pure []
      else if ← atEnd then pure []
      else inside
    let closing ← eat? .parenClose
    if closing.isNone then
      report input .unclosedGroup [⟨"group started here", opening⟩]
    refill
    return [.node .group (bracket ++ body ++ closing.getD [])]

def atomic (inside : Option (Parser Forest)) : Parser Forest := do
  match ← look with
  | some .parenOpen => group input inside
  | some .angleOpen => reference input
  | some .id => leaf .ident
  | some kind =>
    if KindSet.anchors.contains kind then leaf .anchor
    else do
      report input .expectedExpression []
      return []
  | none =>
    report input .expectedExpression []
    return []

/-- The quantifiers after an operand, each around what stands before it. -/
def quantified (room : Nat) (operand : Forest) : Parser Forest := do
  if ← nextIn .quantifiers then
    match room with
    | 0 => throw .nestingLimit
    | room + 1 =>
      refill
      let quantifier ← bump
      let whole ← quantified room [.node .quantified (operand ++ quantifier)]
      refill
      return whole
  else
    return operand

def modified (room : Nat) (inside : Option (Parser Forest)) : Parser Forest := do
  let before ← flush
  let operand ← atomic input inside
  return before ++ (← quantified room operand)

/-- Further operands of a sequence; `fuel` bounds their number. -/
def factors (room : Nat) (inside : Option (Parser Forest)) (fuel : Nat) : Parser Forest := do
  if ← nextIn .atomFirst then
    match fuel with
    | 0 => throw (.fault (.stuckParser (← get).taken))
    | fuel + 1 =>
      let operand ← modified input room inside
      return operand ++ (← factors room inside fuel)
  else
    return []

def concat (room : Nat) (inside : Option (Parser Forest)) : Parser Forest := do
  if ← nextIn .atomFirst then
    let before ← flush
    let first ← modified input room inside
    if ← nextIn .atomFirst then
      let rest ← factors input room inside (← get).ahead.length
      return before ++ [.node .concat (first ++ rest)]
    return before ++ first
  else
    report input .expectedExpression []
    return []

/-- Further operands of a choice, each after its bar; `fuel` bounds their number. -/
def branches (room : Nat) (inside : Option (Parser Forest)) (fuel : Nat) : Parser Forest := do
  match ← eat? .pipe with
  | none => return []
  | some bar =>
    match fuel with
    | 0 => throw (.fault (.stuckParser (← get).taken))
    | fuel + 1 =>
      let operand ← concat input room inside
      return bar ++ operand ++ (← branches room inside fuel)

def union (room : Nat) (inside : Option (Parser Forest)) : Parser Forest := do
  let before ← flush
  let first ← concat input room inside
  if ← nextIs .pipe then
    let rest ← branches input room inside (← get).ahead.length
    return before ++ [.node .alt (first ++ rest)]
  return before ++ first

/-- A regex, with room for `room` levels of groups and quantifiers. -/
def regex : Nat → ParseState → Except Halt (Forest × ParseState)
  | 0, s => union input 0 none s
  | room + 1, s => union input (room + 1) (some (regex room)) s

/-- What follows the first regex: each word that has no place is set aside, and reading goes on
after it; `fuel` bounds their number. -/
def leftovers (room : Nat) (fuel : Nat) : Parser Forest := do
  if ← atEnd then
    return []
  match fuel with
  | 0 => throw (.fault (.stuckParser (← get).taken))
  | fuel + 1 =>
    let misplaced ← setAside input
    let more ← if ← nextIn .atomFirst then regex input room else pure []
    return misplaced ++ more ++ (← leftovers room fuel)

/-- The whole text. -/
def root (limit : Nat) : Parser Tree := do
  let body ←
    if ← atEnd then do
      report input .expectedExpression []
      pure []
    else do
      let first ← regex input limit
      let rest ← leftovers input limit (← get).ahead.length
      pure (first ++ rest)
  return .node .root (body ++ (← flush))

end Productions

end Parser

/-- A tree and what was wrong with its text. -/
structure Parsed where
  root : Tree
  diagnostics : Diagnostics

/-- Reads the text of a source, with room for `limit` levels of groups and quantifiers. -/
def parse (text : String) (source : SourceId) (limit : Nat) : Except Halt Parsed :=
  match Parser.root ⟨source, text.utf8ByteSize⟩ limit (.ofTokens (tokens text)) with
  | .ok (root, s) => .ok ⟨root, s.reports⟩
  | .error halt => .error halt

end CallChain
