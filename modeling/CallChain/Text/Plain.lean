/-!
# Text without control sequences

A log may be read on a terminal, where control characters and the sequences that they begin are not
shown but obeyed. `Text.plain` leaves them out: it keeps what a terminal shows.

* A sequence begins with an escape character and ends as its first characters demand. Cancel and
  substitute end every sequence, and another escape begins a new one.
* Line feeds, carriage returns, form feeds and tabulators are kept in a text. Most sequences let
  them through; strings do not.
* What follows such a blank is text again. The next control character that is not kept takes the
  interrupted sequence up where it was left, unless a character beyond ASCII has been shown since.

All that is left is shown in a text, so nothing is left out a second time.
-/

namespace CallChain.Text

/-- Blanks that are control characters. -/
def isBlankControl (c : Char) : Bool := c = '\t' || c = '\n' || c = '\x0c' || c = '\r'

/-- Is a character shown where it does not belong to a sequence? -/
def isShown (c : Char) : Bool := isBlankControl c || (' ' ≤ c && c ≠ '\x7f')

/-- The characters of ASCII from `first` to `last`. -/
def isBetween (first last c : Char) : Bool := first ≤ c && c ≤ last

/-- Byte `9C` ends a string, also inside of the encoding of a character. -/
def endsString (c : Char) : Bool := (String.utf8EncodeChar c).contains 0x9c

/-! ### Sequences -/

/-- What a character is read as a part of. -/
inductive Sequence where
  | text
  /-- An escape that nothing has followed yet. -/
  | escape
  /-- An escape and the characters between it and the last one of its sequence. -/
  | escapeMiddle
  /-- A control sequence, which runs to a letter or the like. -/
  | control
  /-- A command to the system behind the terminal, which runs to a bell. -/
  | command
  /-- A device control string, which a header opens. -/
  | device
  | deviceParameters
  | deviceMiddle
  /-- A string of which no character counts. -/
  | string
deriving DecidableEq, Repr

namespace Sequence

/-- What the character after an escape begins. -/
def begun (c : Char) : Sequence :=
  if isBetween ' ' '/' c then escapeMiddle
  else if c = '[' then control
  else if c = ']' then command
  else if c = 'P' then device
  else if c = 'X' || c = '^' || c = '_' then string
  else if isBetween '0' '~' c then text
  else escape

/-- What is being read after a character that is not shown. -/
def step (s : Sequence) (c : Char) : Sequence :=
  if c = '\x18' || c = '\x1a' then text
  else if c = '\x1b' then escape
  else
    match s with
    | text => text
    | escape => begun c
    | escapeMiddle => if isBetween '0' '~' c then text else escapeMiddle
    | control => if isBetween '@' '~' c then text else control
    | command => if c = '\x07' then text else command
    | device =>
      if isBetween ' ' '/' c then deviceMiddle
      else if isBetween '0' '?' c then deviceParameters
      else if isBetween '@' '~' c then string
      else device
    | deviceParameters =>
      if isBetween ' ' '/' c then deviceMiddle
      else if isBetween '<' '~' c then string
      else deviceParameters
    | deviceMiddle => if isBetween '0' '~' c then string else deviceMiddle
    | string => if endsString c then text else string

/-- Does a sequence let a character through? -/
def shows (s : Sequence) (c : Char) : Bool :=
  match s with
  | text => isShown c
  | escape | escapeMiddle | control => isBlankControl c
  | command | device | deviceParameters | deviceMiddle | string => false

theorem isShown_of_shows {s : Sequence} {c : Char} (h : s.shows c = true) : isShown c = true := by
  cases s <;> simp_all [shows, isShown]

end Sequence

/-! ### Reading a text -/

/-- A place in a text that is read as a terminal reads it. -/
structure Reading where
  sequence : Sequence
  /-- Has the last character been shown? -/
  isShowing : Bool
deriving DecidableEq, Repr

namespace Reading

/-- After a character that was shown, the next one is looked at as text. -/
def shows (r : Reading) (c : Char) : Bool :=
  (if r.isShowing then Sequence.text else r.sequence).shows c

/-- The place behind a character. Those beyond ASCII end the sequence that they stand in. -/
def next (r : Reading) (c : Char) : Reading :=
  if r.shows c then ⟨if c.toNat < 0x80 then r.sequence else .text, true⟩
  else ⟨r.sequence.step c, false⟩

/-- The characters that are shown. -/
def shown (r : Reading) : List Char → List Char
  | [] => []
  | c :: chars => if r.shows c then c :: (r.next c).shown chars else (r.next c).shown chars

theorem isShown_of_mem_shown {r : Reading} {chars : List Char} {c : Char}
    (h : c ∈ r.shown chars) : isShown c = true := by
  induction chars generalizing r with
  | nil => simp [shown] at h
  | cons d chars ih =>
    unfold shown at h
    split at h
    case isTrue hd =>
      rcases List.mem_cons.mp h with rfl | h
      · exact Sequence.isShown_of_shows hd
      · exact ih h
    case isFalse => exact ih h

theorem shown_sublist (r : Reading) (chars : List Char) : (r.shown chars).Sublist chars := by
  induction chars generalizing r with
  | nil => simp [shown]
  | cons c chars ih =>
    unfold shown
    split
    · exact (ih _).cons_cons c
    · exact (ih _).cons c

/-- In a text without control characters all is shown. -/
theorem shown_eq_self {r : Reading} {chars : List Char} (hr : r.isShowing ∨ r.sequence = .text)
    (h : ∀ c ∈ chars, isShown c = true) : r.shown chars = chars := by
  induction chars generalizing r with
  | nil => rfl
  | cons c chars ih =>
    have hc : r.shows c = true := by
      have := h c List.mem_cons_self
      rcases hr with hr | hr <;> simp [shows, hr, Sequence.shows, this]
    have hnext : (r.next c).isShowing = true := by simp [next, hc]
    rw [shown, if_pos hc, ih (.inl hnext) fun d hd => h d (List.mem_cons_of_mem c hd)]

end Reading

/-- The characters of a text that a terminal shows. -/
def plain (text : String) : String :=
  String.ofList (Reading.shown ⟨.text, false⟩ text.toList)

/-- Nothing is left out of a text that has been made plain. -/
theorem plain_plain (text : String) : plain (plain text) = plain text := by
  simp only [plain, String.toList_ofList]
  rw [Reading.shown_eq_self (.inr rfl) fun _ => Reading.isShown_of_mem_shown]

end CallChain.Text
