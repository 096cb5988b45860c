/-!
# JSON values and their two written forms

`Json.compact` writes a value without blanks; `Json.pretty` breaks lines after brackets and commas
and indents by two spaces, except that an empty list or object stays closed up. Fields are written
in the order given.

Inside a string, the quote, the backslash and the control characters below U+0020 are escaped: with
a letter where JSON has one, else by `\u00` and two lower-case hexadecimal digits. All other
characters stand for themselves.
-/

namespace CallChain

/-- A JSON value. Numbers are the natural ones: indices and counts. -/
inductive Json where
  | null
  | bool (b : Bool)
  | nat (n : Nat)
  | text (s : String)
  | list (items : List Json)
  | object (fields : List (String × Json))

namespace Json

/-! ### Strings -/

/-- A hexadecimal digit in lower case. -/
def hexDigit (n : Nat) : Char := Nat.digitChar (n % 16)

/-- A character as it is written inside a string. -/
def escapeChar (c : Char) : List Char :=
  if c = '"' then ['\\', '"']
  else if c = '\\' then ['\\', '\\']
  else if c = '\n' then ['\\', 'n']
  else if c = '\r' then ['\\', 'r']
  else if c = '\t' then ['\\', 't']
  else if c = '\x08' then ['\\', 'b']
  else if c = '\x0c' then ['\\', 'f']
  else if c.toNat < 0x20 then ['\\', 'u', '0', '0', hexDigit (c.toNat / 16), hexDigit c.toNat]
  else [c]

/-- A string in its quotes. -/
def quoted (s : String) : String :=
  String.ofList ('"' :: s.toList.flatMap escapeChar ++ ['"'])

/-! ### Written forms -/

def ofBool (b : Bool) : String := if b then "true" else "false"

mutual

/-- The value without blanks. -/
def compact : Json → String
  | null => "null"
  | bool b => ofBool b
  | nat n => toString n
  | text s => quoted s
  | list items => "[" ++ ",".intercalate (compactItems items) ++ "]"
  | object fields => "\x7b" ++ ",".intercalate (compactFields fields) ++ "\x7d"

def compactItems : List Json → List String
  | [] => []
  | item :: items => compact item :: compactItems items

def compactFields : List (String × Json) → List String
  | [] => []
  | (key, value) :: fields => (quoted key ++ ":" ++ compact value) :: compactFields fields

end

/-- The start of a line that stands `depth` levels deep. -/
def lineStart (depth : Nat) : String := "\n" ++ String.ofList (List.replicate (2 * depth) ' ')

/-- Written items between brackets, one on a line of its own. -/
def block (opening closing : String) (depth : Nat) (items : List String) : String :=
  if items.isEmpty then
    opening ++ closing
  else
    opening ++ lineStart (depth + 1) ++ ("," ++ lineStart (depth + 1)).intercalate items ++
      lineStart depth ++ closing

mutual

/-- The value with line breaks, its first line standing `depth` levels deep. -/
def prettyAt (depth : Nat) : Json → String
  | null => "null"
  | bool b => ofBool b
  | nat n => toString n
  | text s => quoted s
  | list items => block "[" "]" depth (prettyItems (depth + 1) items)
  | object fields => block "\x7b" "\x7d" depth (prettyFields (depth + 1) fields)

def prettyItems (depth : Nat) : List Json → List String
  | [] => []
  | item :: items => prettyAt depth item :: prettyItems depth items

def prettyFields (depth : Nat) : List (String × Json) → List String
  | [] => []
  | (key, value) :: fields =>
    (quoted key ++ ": " ++ prettyAt depth value) :: prettyFields depth fields

end

/-- The value with line breaks. -/
def pretty (value : Json) : String := prettyAt 0 value

end Json
end CallChain
