import CallChain.Decimal.Shortest
import CallChain.Text.Position
import CallChain.Text.Quoted

/-!
# What can be wrong with a JSON text

A text is either no JSON, or it is not of the form asked for. A problem is reported with the number
of bytes that had been read when it was found, as a line and a column.
-/

namespace CallChain

/-- A number as it was written. -/
inductive WrittenNumber where
  /-- A whole number from zero up. -/
  | natural (n : Nat)
  /-- Minus a positive whole number. -/
  | negative (n : Nat)
  | fraction (isNegative : Bool) (x : Binary64)
deriving DecidableEq, Repr

/-- A value of a form that was not asked for. -/
inductive FoundValue where
  | null
  | bool (b : Bool)
  | number (n : WrittenNumber)
  | text (s : String)
  | list
  | object
deriving DecidableEq, Repr

namespace FoundValue

/-- The value between back quotes. -/
def inQuotes (kind value : String) : String := kind ++ " `" ++ value ++ "`"

def description : FoundValue → String
  | null => "null"
  | bool b => inQuotes "boolean" (if b then "true" else "false")
  | number (.natural n) => inQuotes "integer" (toString n)
  | number (.negative n) => inQuotes "integer" ("-" ++ toString n)
  | number (.fraction isNegative x) =>
    inQuotes "floating point" ((if isNegative then "-" else "") ++ x.text)
  | text s => "string " ++ Text.quoted s
  | list => "sequence"
  | object => "map"

end FoundValue

inductive JsonProblem where
  | endInValue
  | endInObject
  | endInList
  | endInString
  | expectedValue
  /-- A broken `null`, `true` or `false`. -/
  | expectedIdent
  | expectedColon
  | expectedListEnd
  | expectedObjectEnd
  | keyNotText
  | trailingComma
  | trailingCharacters
  | invalidEscape
  /-- Half of a pair of escapes without the other half. -/
  | loneSurrogate
  | unfinishedPair
  | controlCharacter
  | invalidNumber
  | numberTooLarge
  | missingField (name : String)
  | duplicateField (name : String)
  | unknownField (name : String) (known : List String)
  | wrongForm (found : FoundValue) (expected : String)
  | wrongLength (length : Nat) (expected : String)
deriving DecidableEq, Repr

namespace JsonProblem

/-- A field name between back quotes. -/
def fieldText (name : String) : String := "`" ++ name ++ "`"

def message : JsonProblem → String
  | endInValue => "EOF while parsing a value"
  | endInObject => "EOF while parsing an object"
  | endInList => "EOF while parsing a list"
  | endInString => "EOF while parsing a string"
  | expectedValue => "expected value"
  | expectedIdent => "expected ident"
  | expectedColon => "expected `:`"
  | expectedListEnd => "expected `,` or `]`"
  | expectedObjectEnd => "expected `,` or `\x7d`"
  | keyNotText => "key must be a string"
  | trailingComma => "trailing comma"
  | trailingCharacters => "trailing characters"
  | invalidEscape => "invalid escape"
  | loneSurrogate => "lone leading surrogate in hex escape"
  | unfinishedPair => "unexpected end of hex escape"
  | controlCharacter => "control character (\\u0000-\\u001F) found while parsing a string"
  | invalidNumber => "invalid number"
  | numberTooLarge => "number out of range"
  | missingField name => "missing field " ++ fieldText name
  | duplicateField name => "duplicate field " ++ fieldText name
  | unknownField name known =>
    "unknown field " ++ fieldText name ++ ", expected one of " ++
      ", ".intercalate (known.map fieldText)
  | wrongForm found expected => "invalid type: " ++ found.description ++ ", expected " ++ expected
  | wrongLength length expected =>
    "invalid length " ++ toString length ++ ", expected " ++ expected

/-- The message with the position of an offset. -/
def messageAt (problem : JsonProblem) (text : String) (offset : Nat) : String :=
  let (line, column) := Text.position text offset
  problem.message ++ " at line " ++ toString line ++ " column " ++ toString column

end JsonProblem
end CallChain
