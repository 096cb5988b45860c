import CallChain.Json.Problem

/-!
# Reading a JSON text

A reader takes what it asks for off the front of a text, or tells what is wrong there. The first
problem ends the reading, so the order in which readers look at characters decides which of two
problems is reported.

A problem has a place as soon as it is found, unless it is about a list or an object as a whole.
Such a problem is placed behind the closing bracket, as far as there is one (`enclosed`).
-/

namespace CallChain

/-- The part of a text that has not been read. -/
structure Cursor where
  rest : List Char
  /-- Number of bytes that have been read. -/
  offset : Nat
deriving DecidableEq, Repr

/-- A problem, and the number of bytes read before it was found if that is settled. -/
structure Mishap where
  problem : JsonProblem
  place : Option Nat
deriving DecidableEq, Repr

/-- What is read, or a problem; in both cases the cursor stands where reading came to. -/
abbrev Reader := ExceptT Mishap (StateM Cursor)

namespace Reader

/-! ### Characters -/

def isBlank (c : Char) : Bool := c = ' ' || c = '\n' || c = '\t' || c = '\r'

/-- The next character, which is not taken. -/
def peek : Reader (Option Char) := do return (← get).rest.head?

/-- Takes the characters that satisfy a test. -/
def takeWhile (test : Char → Bool) : Reader (List Char) := do
  let c ← get
  let taken := c.rest.takeWhile test
  set (Cursor.mk (c.rest.dropWhile test) (c.offset + Text.byteSize taken))
  return taken

/-- Takes the next character. -/
def take? : Reader (Option Char) := do
  let c ← get
  match c.rest with
  | [] => return none
  | char :: rest =>
    set (Cursor.mk rest (c.offset + char.utf8Size))
    return some char

/-- Drops the next character. -/
def skip : Reader Unit := do
  let _ ← take?

/-- Drops blanks, and looks at the next character. -/
def peekPastBlanks : Reader (Option Char) := do
  let _ ← takeWhile isBlank
  peek

/-! ### Problems -/

def failAt {α : Type} (place : Nat) (problem : JsonProblem) : Reader α :=
  throw ⟨problem, some place⟩

/-- A problem with what has been read. -/
def failHere {α : Type} (problem : JsonProblem) : Reader α := do
  failAt (← get).offset problem

/-- A problem with the next byte, which counts as read. -/
def failNext {α : Type} (problem : JsonProblem) : Reader α := do
  let c ← get
  failAt (if c.rest.isEmpty then c.offset else c.offset + 1) problem

/-- A problem with the list or object that is being read. -/
def failWhole {α : Type} (problem : JsonProblem) : Reader α := throw ⟨problem, none⟩

/-- Settles the place of a problem. -/
def Mishap.settle (m : Mishap) (offset : Nat) : Mishap := ⟨m.problem, m.place <|> some offset⟩

/-- Reads what stands before a closing bracket, and then the bracket, also after a problem. -/
def enclosed {α : Type} (closing : Reader Unit) (content : Reader α) : Reader α := fun c =>
  let (result, c) := content c
  let (closed, c) := closing c
  match result, closed with
  | .ok a, .ok () => (.ok a, c)
  | .error m, _ => (.error (Mishap.settle m c.offset), c)
  | .ok _, .error m => (.error m, c)

/-! ### Words and strings -/

/-- Takes the given characters, which are ASCII. -/
def word : List Char → Reader Unit
  | [] => pure ()
  | expected :: more => do
    let before := (← get).offset
    match ← take? with
    | none => failHere .endInValue
    | some c => if c = expected then word more else failAt (before + 1) .expectedIdent

/-- What a scan takes off a text, or a problem and its place. -/
abbrev Scan (α : Type) := Except (JsonProblem × Nat) (α × Cursor)

def hexValue? (c : Char) : Option Nat :=
  if c.isDigit then some (c.toNat - '0'.toNat)
  else if 'a' ≤ c && c ≤ 'f' then some (c.toNat - 'a'.toNat + 10)
  else if 'A' ≤ c && c ≤ 'F' then some (c.toNat - 'A'.toNat + 10)
  else none

/-- Four hexadecimal digits. They are taken as four bytes, whatever these are. -/
def hexDigits : Cursor → Scan Nat
  | ⟨chars, offset⟩ =>
    if Text.byteSize chars < 4 then
      .error (.endInString, offset + Text.byteSize chars)
    else
      match chars with
      | a :: b :: c :: d :: rest =>
        match hexValue? a, hexValue? b, hexValue? c, hexValue? d with
        | some a, some b, some c, some d =>
          .ok (((a * 16 + b) * 16 + c) * 16 + d, ⟨rest, offset + 4⟩)
        | _, _, _, _ => .error (.invalidEscape, offset + 4)
      | _ => .error (.invalidEscape, offset + 4)

def isHighSurrogate (n : Nat) : Bool := 0xd800 ≤ n && n ≤ 0xdbff

def isLowSurrogate (n : Nat) : Bool := 0xdc00 ≤ n && n ≤ 0xdfff

/-- The second half of a pair of escapes. -/
def lowSurrogate (high : Nat) : Cursor → Scan Char
  | ⟨[], offset⟩ => .error (.endInString, offset)
  | ⟨'\\' :: [], offset⟩ => .error (.endInString, offset + 1)
  | ⟨'\\' :: 'u' :: rest, offset⟩ =>
    match hexDigits ⟨rest, offset + 2⟩ with
    | .error e => .error e
    | .ok (low, next) =>
      if isLowSurrogate low then
        .ok (Char.ofNat (0x10000 + (high - 0xd800) * 0x400 + (low - 0xdc00)), next)
      else
        .error (.loneSurrogate, next.offset)
  | ⟨'\\' :: _, offset⟩ => .error (.unfinishedPair, offset + 2)
  | ⟨_ :: _, offset⟩ => .error (.unfinishedPair, offset + 1)

/-- The character of an escape by number. -/
def numberedEscape (c : Cursor) : Scan Char :=
  match hexDigits c with
  | .error e => .error e
  | .ok (n, next) =>
    if isLowSurrogate n then .error (.loneSurrogate, next.offset)
    else if isHighSurrogate n then lowSurrogate n next
    else .ok (Char.ofNat n, next)

/-- The character that a letter behind a backslash stands for. -/
def letterEscape? (c : Char) : Option Char :=
  match c with
  | '"' => some '"'
  | '\\' => some '\\'
  | '/' => some '/'
  | 'b' => some '\x08'
  | 'f' => some '\x0c'
  | 'n' => some '\n'
  | 'r' => some '\r'
  | 't' => some '\t'
  | _ => none

/-- The character of the escape behind a backslash. -/
def escape : Cursor → Scan Char
  | ⟨[], offset⟩ => .error (.endInString, offset)
  | ⟨c :: rest, offset⟩ =>
    match letterEscape? c with
    | some char => .ok (char, ⟨rest, offset + 1⟩)
    | none =>
      if c = 'u' then numberedEscape ⟨rest, offset + 1⟩ else .error (.invalidEscape, offset + 1)

theorem length_hexDigits {c next : Cursor} {n : Nat} (h : hexDigits c = .ok (n, next)) :
    next.rest.length < c.rest.length := by
  unfold hexDigits at h
  split at h
  split at h
  · cases h
  · split at h
    · split at h
      · cases h
        simp only [List.length_cons]
        omega
      · cases h
    · cases h

theorem length_lowSurrogate {high : Nat} {c next : Cursor} {char : Char}
    (h : lowSurrogate high c = .ok (char, next)) : next.rest.length < c.rest.length := by
  unfold lowSurrogate at h
  split at h
  · cases h
  · cases h
  · split at h
    · cases h
    · rename_i hd
      have := length_hexDigits hd
      split at h
      · simp only [Except.ok.injEq, Prod.mk.injEq] at h
        simp only [← h.2, List.length_cons] at this ⊢
        omega
      · cases h
  · cases h
  · cases h

theorem length_numberedEscape {c next : Cursor} {char : Char}
    (h : numberedEscape c = .ok (char, next)) : next.rest.length < c.rest.length := by
  unfold numberedEscape at h
  split at h
  · cases h
  · rename_i hd
    have := length_hexDigits hd
    split at h
    · cases h
    · split at h
      · have := length_lowSurrogate h
        omega
      · cases h
        omega

theorem length_escape {c next : Cursor} {char : Char} (h : escape c = .ok (char, next)) :
    next.rest.length < c.rest.length := by
  unfold escape at h
  split at h
  · cases h
  · split at h
    · cases h
      simp
    · split at h
      · have := length_numberedEscape h
        simp only [List.length_cons] at *
        omega
      · cases h

/-- The characters up to the closing quote, which is taken too. -/
def stringScan (c : Cursor) : Scan (List Char) :=
  match c with
  | ⟨[], offset⟩ => .error (.endInString, offset)
  | ⟨'"' :: rest, offset⟩ => .ok ([], ⟨rest, offset + 1⟩)
  | ⟨'\\' :: rest, offset⟩ =>
    match _ : escape ⟨rest, offset + 1⟩ with
    | .error e => .error e
    | .ok (char, next) => (stringScan next).map fun (chars, last) => (char :: chars, last)
  | ⟨char :: rest, offset⟩ =>
    if char.toNat < 0x20 then
      .error (.controlCharacter, offset + 1)
    else
      (stringScan ⟨rest, offset + char.utf8Size⟩).map fun (chars, last) => (char :: chars, last)
termination_by c.rest.length
decreasing_by
  · have := length_escape (by assumption)
    simp only [List.length_cons] at *
    omega
  · simp

/-- Takes the characters of a string up to its closing quote. -/
def stringContent : Reader String := do
  match stringScan (← get) with
  | .ok (chars, next) =>
    set next
    return String.ofList chars
  | .error (problem, place) => failAt place problem

/-! ### Numbers -/

def digitValue (c : Char) : Nat := c.toNat - '0'.toNat

/-- Appends digits to a number as long as it does not exceed a limit; the digits that are left over
are answered too. -/
def appendDigits (limit n : Nat) : List Char → Nat × List Char
  | [] => (n, [])
  | d :: digits =>
    let next := 10 * n + digitValue d
    if limit < next then (n, d :: digits) else appendDigits limit next digits

/-- The greatest mantissa of a number that is being read; further digits only scale it. -/
def mantissaLimit : Nat := Nat.pow 2 64 - 1

/-- The greatest exponent. -/
def exponentLimit : Nat := Nat.pow 2 31 - 1

/-- A mantissa scaled by a power of ten. -/
def scaled (isNegative : Bool) (mantissa : Nat) (exponent : Int) : Reader WrittenNumber := do
  match (Binary64.ofFraction? mantissa 1).bind (·.scale? exponent) with
  | some x => return .fraction isNegative x
  | none => failHere .numberTooLarge

/-- The sign of an exponent. -/
def exponentSign : Reader Bool := do
  match ← peek with
  | some '+' => skip; return false
  | some '-' => skip; return true
  | _ => return false

/-- An exponent, its letter included. -/
def withExponent (isNegative : Bool) (mantissa : Nat) (scale : Int) : Reader WrittenNumber := do
  skip
  let isDown ← exponentSign
  let before := (← get).offset
  match ← take? with
  | none => failHere .endInValue
  | some first =>
    if !first.isDigit then
      failAt (before + 1) .invalidNumber
    else
      let digits ← takeWhile Char.isDigit
      let (exponent, excess) := appendDigits exponentLimit (digitValue first) digits
      if excess.isEmpty then
        scaled isNegative mantissa (if isDown then scale - exponent else scale + exponent)
      else if mantissa = 0 || isDown then
        return .fraction isNegative .zero
      else
        failAt (before + 1 + (digits.length - excess.length) + 1) .numberTooLarge

/-- What may follow a mantissa with a point. -/
def exponentOrEnd (isNegative : Bool) (mantissa : Nat) (scale : Int) : Reader WrittenNumber := do
  match ← peek with
  | some 'e' | some 'E' => withExponent isNegative mantissa scale
  | _ => scaled isNegative mantissa scale

/-- The digits behind a point, the point included. -/
def withFraction (isNegative : Bool) (mantissa : Nat) (scale : Int) : Reader WrittenNumber := do
  skip
  let digits ← takeWhile Char.isDigit
  if digits.isEmpty then
    match ← peek with
    | some _ => failNext .invalidNumber
    | none => failNext .endInValue
  else
    let (mantissa, excess) := appendDigits mantissaLimit mantissa digits
    exponentOrEnd isNegative mantissa (scale - (digits.length - excess.length : Nat))

/-- A whole number of which no digit was dropped. Minus zero is no whole number, and neither is what
is below the least one of 64 bits. -/
def whole (isNegative : Bool) (n : Nat) : Reader WrittenNumber := do
  if !isNegative then
    return .natural n
  else if n = 0 || Nat.pow 2 63 < n then
    scaled true n 0
  else
    return .negative n

/-- What may follow the digits before the point; `dropped` of them did not fit the mantissa. -/
def afterDigits (isNegative : Bool) (mantissa dropped : Nat) : Reader WrittenNumber := do
  match ← peek with
  | some '.' => withFraction isNegative mantissa dropped
  | some 'e' | some 'E' => withExponent isNegative mantissa dropped
  | _ => if dropped = 0 then whole isNegative mantissa else scaled isNegative mantissa dropped

/-- A number behind its sign. -/
def number (isNegative : Bool) : Reader WrittenNumber := do
  let before := (← get).offset
  match ← take? with
  | none => failHere .endInValue
  | some first =>
    if !first.isDigit then
      failAt (before + 1) .invalidNumber
    else if first = '0' then
      if (← peek).any Char.isDigit then failNext .invalidNumber else afterDigits isNegative 0 0
    else
      let digits ← takeWhile Char.isDigit
      let (mantissa, excess) := appendDigits mantissaLimit (digitValue first) digits
      afterDigits isNegative mantissa excess.length

/-! ### Values -/

/-- Takes what stands in the place of a value of another form; of a list or an object, nothing. -/
def foundValue : Reader FoundValue := do
  match ← peek with
  | some 'n' => skip; word ['u', 'l', 'l']; return .null
  | some 't' => skip; word ['r', 'u', 'e']; return .bool true
  | some 'f' => skip; word ['a', 'l', 's', 'e']; return .bool false
  | some '-' => skip; return .number (← number true)
  | some '"' => skip; return .text (← stringContent)
  | some '[' => return .list
  | some '\x7b' => return .object
  | some c => if c.isDigit then return .number (← number false) else failNext .expectedValue
  | none => failNext .expectedValue

/-- Reports a value of another form. -/
def wrongForm {α : Type} (expected : String) : Reader α := do
  failHere (.wrongForm (← foundValue) expected)

/-- The first character of a value. -/
def valueStart : Reader Char := do
  match ← peekPastBlanks with
  | some c => return c
  | none => failNext .endInValue

def text : Reader String := do
  match ← valueStart with
  | '"' => skip; stringContent
  | _ => wrongForm "a string"

def bool : Reader Bool := do
  match ← valueStart with
  | 't' => skip; word ['r', 'u', 'e']; return true
  | 'f' => skip; word ['a', 'l', 's', 'e']; return false
  | _ => wrongForm "a boolean"

/-- A value or `null`. -/
def optional {α : Type} (value : Reader α) : Reader (Option α) := do
  match ← peekPastBlanks with
  | some 'n' => skip; word ['u', 'l', 'l']; return none
  | _ => return some (← value)

/-! ### Lists -/

/-- Is there another item? The comma before it is taken. -/
def hasItem (isFirst : Bool) : Reader Bool := do
  match ← peekPastBlanks with
  | none => failNext .endInList
  | some ']' => return false
  | some c =>
    if isFirst then
      return true
    else if c = ',' then
      skip
      match ← peekPastBlanks with
      | none => failNext .endInValue
      | some ']' => failNext .trailingComma
      | some _ => return true
    else
      failNext .expectedListEnd

/-- The closing bracket of a list. -/
def listEnd : Reader Unit := do
  match ← peekPastBlanks with
  | some ']' => skip
  | some ',' =>
    skip
    match ← peekPastBlanks with
    | some ']' => failNext .trailingComma
    | _ => failNext .trailingCharacters
  | some _ => failNext .trailingCharacters
  | none => failNext .endInList

/-- The items of a list, of which there are fewer than `fuel`. -/
def items {α : Type} (item : Reader α) : Nat → Bool → Reader (List α)
  | 0, _ => return []
  | fuel + 1, isFirst => do
    if ← hasItem isFirst then
      let first ← item
      return first :: (← items item fuel false)
    else
      return []

/-- A list. Each of its items takes a character at least. -/
def list {α : Type} (item : Reader α) : Reader (List α) := do
  match ← valueStart with
  | '[' =>
    skip
    enclosed listEnd (items item ((← get).rest.length + 1) true)
  | _ => wrongForm "a sequence"

/-! ### Records -/

/-- One field of a record: a required field has no default. -/
structure Field (σ : Type) where
  name : String
  isRequired : Bool
  /-- Reads the value of the field into a record. -/
  read : σ → Reader σ

/-- The form of a record. It is written as an object, or as a list of its fields in order. -/
structure RecordForm (σ : Type) where
  name : String
  fields : List (Field σ)
  /-- All fields at their defaults. -/
  blank : σ

/-- Is there another key? The comma before it is taken. -/
def hasKey (isFirst : Bool) : Reader Bool := do
  match ← peekPastBlanks with
  | none => failNext .endInObject
  | some '\x7d' => return false
  | some c =>
    if isFirst then
      if c = '"' then return true else failNext .keyNotText
    else if c = ',' then
      skip
      match ← peekPastBlanks with
      | none => failNext .endInValue
      | some '"' => return true
      | some '\x7d' => failNext .trailingComma
      | some _ => failNext .keyNotText
    else
      failNext .expectedObjectEnd

/-- The closing bracket of an object. -/
def objectEnd : Reader Unit := do
  match ← peekPastBlanks with
  | some '\x7d' => skip
  | some ',' => failNext .trailingComma
  | some _ => failNext .trailingCharacters
  | none => failNext .endInObject

/-- The colon behind a key. -/
def colon : Reader Unit := do
  match ← peekPastBlanks with
  | some ':' => skip
  | some _ => failNext .expectedColon
  | none => failNext .endInObject

namespace RecordForm

variable {σ : Type} (form : RecordForm σ)

/-- The fields of an object, fewer than `fuel` of them, since none is given twice; `given` holds the
names of those before. -/
def entries : Nat → Bool → List String → σ → Reader (List String × σ)
  | 0, _, given, record => return (given, record)
  | fuel + 1, isFirst, given, record => do
    if ← hasKey isFirst then
      skip
      let key ← stringContent
      match form.fields.find? (·.name = key) with
      | none => failWhole (.unknownField key (form.fields.map (·.name)))
      | some field =>
        if given.contains key then
          failWhole (.duplicateField key)
        else
          colon
          entries fuel false (key :: given) (← field.read record)
    else
      return (given, record)

/-- A record written as an object. -/
def ofObject : Reader σ := do
  let (given, record) ← form.entries (form.fields.length + 2) true [] form.blank
  match form.fields.find? fun field => field.isRequired && !given.contains field.name with
  | some field => failWhole (.missingField field.name)
  | none => return record

/-- What is asked for where a list is too short. -/
def lengthText : String :=
  "struct " ++ form.name ++ " with " ++ toString form.fields.length ++ " elements"

/-- The fields of a list from a place on; those at the end may be missing if they have defaults. -/
def inOrder (place : Nat) (isFirst : Bool) (record : σ) : List (Field σ) → Reader σ
  | [] => return record
  | field :: fields => do
    if ← hasItem isFirst then
      inOrder (place + 1) false (← field.read record) fields
    else if field.isRequired then
      failWhole (.wrongLength place form.lengthText)
    else
      inOrder (place + 1) isFirst record fields

/-- A record written as a list. -/
def ofList : Reader σ := form.inOrder 0 true form.blank form.fields

def read : Reader σ := do
  match ← valueStart with
  | '[' => skip; enclosed listEnd form.ofList
  | '\x7b' => skip; enclosed objectEnd form.ofObject
  | _ => wrongForm ("struct " ++ form.name)

end RecordForm

/-! ### Whole texts -/

/-- Nothing but blanks may follow. -/
def finish : Reader Unit := do
  match ← peekPastBlanks with
  | some _ => failNext .trailingCharacters
  | none => pure ()

/-- Reads a whole text, or says what is wrong with it. -/
def run {α : Type} (value : Reader α) (text : String) : Except String α :=
  let whole : Reader α := do
    let a ← value
    finish
    return a
  match whole ⟨text.toList, 0⟩ with
  | (.ok a, _) => .ok a
  | (.error m, c) => .error (m.problem.messageAt text (m.place.getD c.offset))

end Reader
end CallChain
