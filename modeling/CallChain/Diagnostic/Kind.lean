/-!
# Kinds of diagnostics

The kinds are ordered by priority, highest first: unclosed brackets come before what is missing,
that before what is out of place, and syntax before meaning. Of two diagnostics at one place only
those of the higher kind are worth showing.

The message of a diagnostic names the text it is about, if there is one.
-/

namespace CallChain

inductive Severity where
  | error
  | warning
deriving DecidableEq, Repr

def Severity.word : Severity → String
  | error => "error"
  | warning => "warning"

inductive DiagnosticKind where
  | unclosedGroup
  | unclosedSubExpressionRef
  | expectedExpression
  | expectedSubExpressionName
  | unexpectedToken
  | undefinedIdentifier
  | undefinedSubExpression
  | recursiveSubExpression
  | unusedSubExpression
deriving DecidableEq, Repr

namespace DiagnosticKind

/-- All kinds, highest priority first. -/
def all : List DiagnosticKind :=
  [unclosedGroup, unclosedSubExpressionRef, expectedExpression, expectedSubExpressionName,
    unexpectedToken, undefinedIdentifier, undefinedSubExpression, recursiveSubExpression,
    unusedSubExpression]

/-- Place in the order of priority. -/
def rank (k : DiagnosticKind) : Nat := all.idxOf k

/-- Is the second kind not worth showing where the first one is shown? -/
def suppresses (a b : DiagnosticKind) : Bool := a.rank < b.rank

def severity : DiagnosticKind → Severity
  | unusedSubExpression => .warning
  | _ => .error

/-- Is this kind found while reading, and not while analyzing? -/
def isSyntaxError : DiagnosticKind → Bool
  | unclosedGroup | unclosedSubExpressionRef | expectedExpression | expectedSubExpressionName
  | unexpectedToken => true
  | undefinedIdentifier | undefinedSubExpression | recursiveSubExpression
  | unusedSubExpression => false

def name : DiagnosticKind → String
  | unclosedGroup => "UnclosedGroup"
  | unclosedSubExpressionRef => "UnclosedSubExpressionRef"
  | expectedExpression => "ExpectedExpression"
  | expectedSubExpressionName => "ExpectedSubExpressionName"
  | unexpectedToken => "UnexpectedToken"
  | undefinedIdentifier => "UndefinedIdentifier"
  | undefinedSubExpression => "UndefinedSubExpression"
  | recursiveSubExpression => "RecursiveSubExpression"
  | unusedSubExpression => "UnusedSubExpression"

def ofName? (name : String) : Option DiagnosticKind := all.find? (·.name == name)

/-! ### Messages -/

/-- The message of a diagnostic that is about no particular text. -/
def fallbackMessage : DiagnosticKind → String
  | unclosedGroup => "missing closing `)`"
  | unclosedSubExpressionRef => "missing closing `>`"
  | expectedExpression => "expected an expression"
  | expectedSubExpressionName => "expected subexpression name"
  | unexpectedToken => "unexpected token"
  | undefinedIdentifier => "undefined action"
  | undefinedSubExpression => "undefined subexpression"
  | recursiveSubExpression => "recursive subexpression"
  | unusedSubExpression => "unused subexpression"

/-- What stands before and after the text that a message names. -/
def frame : DiagnosticKind → String × String
  | undefinedIdentifier => ("`", "` is not a declared action")
  | undefinedSubExpression => ("subexpression `<", ">` is not defined")
  | recursiveSubExpression => ("subexpression `<", ">` is used recursively")
  | unusedSubExpression => ("subexpression `", "` is never used")
  | unexpectedToken => ("unexpected `", "`")
  | k => (k.fallbackMessage ++ ", found `", "`")

/-- The message about a text. -/
def messageAbout (k : DiagnosticKind) (detail : String) : String :=
  k.frame.1 ++ detail ++ k.frame.2

/-- The message, with a pair of braces where the text goes. -/
def template (k : DiagnosticKind) : String := k.messageAbout "\x7b\x7d"

def message (k : DiagnosticKind) : Option String → String
  | none => k.fallbackMessage
  | some detail => k.messageAbout detail

end DiagnosticKind
end CallChain
