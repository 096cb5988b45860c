import CallChain.Json
import CallChain.Json.Reader
import CallChain.Proofs.Lists

/-!
# Reading what has been written

Readers are followed from the text before them to the text behind them (`Takes`); how many bytes
have been read matters to problems only, and is left open. A reader accepts characters as a value if
it takes them, with blanks before them, whatever stands behind (`Accepts`).

* `stringScan_flatMap`: the characters of a string come back from their escapes.
* `accepts_text`, `accepts_bool`, `Accepts.optional`, `accepts_list`, `accepts_record`: values.
* `run_eq_ok`: whole texts.
-/

namespace CallChain

namespace Reader

/-! ### From one text to another -/

/-- The reader answers `a` and goes on to the text `after`, from wherever the text `before` is. -/
def Takes {α : Type} (r : Reader α) (before : List Char) (a : α) (after : List Char) : Prop :=
  ∀ offset, ∃ offset', r ⟨before, offset⟩ = (.ok a, ⟨after, offset'⟩)

variable {α β σ : Type} {r : Reader α} {next : α → Reader β} {before middle after : List Char}
  {a : α} {b : β} {c : Char}

theorem takes_pure : Takes (pure a) after a after := fun offset => ⟨offset, rfl⟩

theorem Takes.bind (h : Takes r before a middle) (hnext : Takes (next a) middle b after) :
    Takes (r >>= next) before b after := by
  intro offset
  obtain ⟨offset₁, hr⟩ := h offset
  obtain ⟨offset₂, hb⟩ := hnext offset₁
  refine ⟨offset₂, ?_⟩
  show ExceptT.bindCont next (r ⟨before, offset⟩).1 (r ⟨before, offset⟩).2 = _
  rw [hr]
  exact hb

theorem Takes.map {f : α → β} (h : Takes r before a after) :
    Takes (do return f (← r)) before (f a) after := h.bind takes_pure

/-- What has been read so far only counts for problems. -/
theorem takes_get_bind {next : Cursor → Reader β}
    (h : ∀ offset, Takes (next ⟨before, offset⟩) before b after) :
    Takes (get >>= next) before b after := fun offset => h offset offset

theorem takes_skip : Takes skip (c :: after) () after := fun _ => ⟨_, rfl⟩

theorem takes_word (chars : List Char) : Takes (word chars) (chars ++ after) () after := by
  induction chars with
  | nil => exact takes_pure
  | cons c chars ih =>
    have htake : Takes take? (c :: (chars ++ after)) (some c) (chars ++ after) := fun _ => ⟨_, rfl⟩
    refine takes_get_bind fun offset => htake.bind ?_
    show Takes (if c = c then word chars else _) _ _ _
    rw [if_pos rfl]
    exact ih

theorem Takes.enclosed {closing : Reader Unit} (h : Takes r before a middle)
    (hclosing : Takes closing middle () after) : Takes (enclosed closing r) before a after := by
  intro offset
  obtain ⟨offset₁, hr⟩ := h offset
  obtain ⟨offset₂, hb⟩ := hclosing offset₁
  refine ⟨offset₂, ?_⟩
  unfold Reader.enclosed
  simp only [hr, hb]

/-! ### Blanks -/

/-- Characters that may stand between any two parts of a text. -/
def IsGap (gap : List Char) : Prop := ∀ c ∈ gap, isBlank c = true

theorem isGap_nil : IsGap [] := List.forall_mem_nil _

theorem IsGap.append {gap gap' : List Char} (h : IsGap gap) (h' : IsGap gap') :
    IsGap (gap ++ gap') := List.forall_mem_append.2 ⟨h, h'⟩

variable {gap gap' : List Char}

theorem takes_peekPastBlanks (hgap : IsGap gap) (hafter : (after.head?.any isBlank) = false) :
    Takes peekPastBlanks (gap ++ after) after.head? after := by
  have htest : after.dropWhile isBlank = after := by
    cases after with
    | nil => rfl
    | cons c after => exact List.dropWhile_cons_of_neg (by simpa using hafter)
  intro offset
  refine ⟨offset + Text.byteSize ((gap ++ after).takeWhile isBlank), ?_⟩
  show (Except.ok ((gap ++ after).dropWhile isBlank).head?,
    (⟨(gap ++ after).dropWhile isBlank, _⟩ : Cursor)) = _
  rw [List.dropWhile_append_of_pos hgap, htest]

/-- The next character after blanks. -/
theorem takes_peek (hgap : IsGap gap) (hc : isBlank c = false) :
    Takes peekPastBlanks (gap ++ c :: after) (some c) (c :: after) :=
  takes_peekPastBlanks hgap hc

theorem takes_valueStart (hgap : IsGap gap) (hc : isBlank c = false) :
    Takes valueStart (gap ++ c :: after) c (c :: after) := (takes_peek hgap hc).bind takes_pure

/-! ### Strings -/

theorem hexValue?_hexDigit (n : Nat) : hexValue? (Json.hexDigit n) = some (n % 16) := by
  have hdigits : ∀ n < 16, hexValue? (Nat.digitChar n) = some n := by decide
  exact hdigits _ (Nat.mod_lt n (by decide))

theorem length_le_byteSize (chars : List Char) : chars.length ≤ Text.byteSize chars := by
  induction chars with
  | nil => exact Nat.le_refl 0
  | cons c chars ih =>
    show chars.length + 1 ≤ c.utf8Size + Text.byteSize chars
    have hc := c.utf8Size_pos
    omega

theorem hexDigits_eq {w x y z : Char} {i j k l : Nat} (hw : hexValue? w = some i)
    (hx : hexValue? x = some j) (hy : hexValue? y = some k) (hz : hexValue? z = some l)
    (offset : Nat) : hexDigits ⟨w :: x :: y :: z :: after, offset⟩ =
      .ok (((i * 16 + j) * 16 + k) * 16 + l, ⟨after, offset + 4⟩) := by
  have hsize : ¬ Text.byteSize (w :: x :: y :: z :: after) < 4 := by
    have hlength := length_le_byteSize (w :: x :: y :: z :: after)
    simp only [List.length_cons] at hlength
    omega
  unfold hexDigits
  simp only [if_neg hsize, hw, hx, hy, hz]

/-- A control character comes back from its number. -/
theorem escape_number (hc : c.toNat < 0x20) (offset : Nat) :
    escape ⟨'u' :: '0' :: '0' :: Json.hexDigit (c.toNat / 16) :: Json.hexDigit c.toNat :: after,
      offset⟩ = .ok (c, ⟨after, offset + 5⟩) := by
  have hdigits : hexDigits ⟨'0' :: '0' :: Json.hexDigit (c.toNat / 16) ::
      Json.hexDigit c.toNat :: after, offset + 1⟩ = .ok (c.toNat, ⟨after, offset + 5⟩) := by
    rw [hexDigits_eq rfl rfl (hexValue?_hexDigit _) (hexValue?_hexDigit _)]
    -- the number is below 32, so its first two digits are zero
    have hvalue : ((0 * 16 + 0) * 16 + c.toNat / 16 % 16) * 16 + c.toNat % 16 = c.toNat := by omega
    exact congrArg (fun n => Except.ok (n, _)) hvalue
  have hlow : isLowSurrogate c.toNat = false := by
    simp only [isLowSurrogate, Bool.and_eq_false_iff, decide_eq_false_iff_not]
    omega
  have hhigh : isHighSurrogate c.toNat = false := by
    simp only [isHighSurrogate, Bool.and_eq_false_iff, decide_eq_false_iff_not]
    omega
  show numberedEscape _ = _
  rw [numberedEscape, hdigits]
  simp only [hlow, hhigh, Char.ofNat_toNat]
  rfl

theorem stringScan_backslash {chars : List Char} {offset : Nat} {last : Cursor}
    (h : escape ⟨chars, offset + 1⟩ = .ok (c, last)) :
    stringScan ⟨'\\' :: chars, offset⟩ =
      (stringScan last).map fun (chars, last) => (c :: chars, last) := by
  rw [stringScan]
  split
  next h' => cases h.symm.trans h'
  next h' =>
    cases h.symm.trans h'
    rfl

theorem stringScan_cons (hquote : c ≠ '"') (hbackslash : c ≠ '\\') (hc : ¬ c.toNat < 0x20)
    (offset : Nat) : stringScan ⟨c :: after, offset⟩ =
      (stringScan ⟨after, offset + c.utf8Size⟩).map fun (chars, last) => (c :: chars, last) := by
  rw [stringScan, if_neg hc]
  · exact hquote
  · exact hbackslash

/-- A character comes back from what it is written as. -/
theorem stringScan_escapeChar (c : Char) (after : List Char) (offset : Nat) :
    ∃ offset', stringScan ⟨Json.escapeChar c ++ after, offset⟩ =
      (stringScan ⟨after, offset'⟩).map fun (chars, last) => (c :: chars, last) := by
  fun_cases Json.escapeChar c
  -- the characters that have a letter
  all_goals try (subst_vars; exact ⟨_, stringScan_backslash rfl⟩)
  next h => exact ⟨_, stringScan_backslash (escape_number h _)⟩
  next h => refine ⟨_, stringScan_cons ?_ ?_ h _⟩ <;> assumption

theorem stringScan_flatMap (chars after : List Char) (offset : Nat) :
    ∃ offset', stringScan ⟨chars.flatMap Json.escapeChar ++ '"' :: after, offset⟩ =
      .ok (chars, ⟨after, offset'⟩) := by
  induction chars generalizing offset with
  | nil =>
    rw [List.flatMap_nil, List.nil_append, stringScan]
    exact ⟨_, rfl⟩
  | cons c chars ih =>
    rw [List.flatMap_cons, List.append_assoc]
    obtain ⟨offset₁, hc⟩ := stringScan_escapeChar c (chars.flatMap Json.escapeChar ++ '"' :: after)
      offset
    obtain ⟨offset₂, hchars⟩ := ih offset₁
    refine ⟨offset₂, ?_⟩
    rw [hc, hchars]
    rfl

theorem takes_stringContent (s : String) :
    Takes stringContent (s.toList.flatMap Json.escapeChar ++ '"' :: after) s after := by
  refine takes_get_bind fun offset => ?_
  obtain ⟨offset', h⟩ := stringScan_flatMap s.toList after offset
  rw [h]
  refine fun _ => ⟨offset', ?_⟩
  show (Except.ok (String.ofList s.toList), _) = _
  rw [String.ofList_toList]

/-! ### Values -/

/-- Characters a value can begin with: no blank, no bracket that closes a list, and not the first
character of `null`. -/
def IsStart (c : Char) : Prop := isBlank c = false ∧ c ≠ ']' ∧ c ≠ 'n'

instance (c : Char) : Decidable (IsStart c) := inferInstanceAs (Decidable (_ ∧ _))

/-- The reader takes the characters as `a`, whatever stands before and behind them. -/
structure Accepts {α : Type} (r : Reader α) (chars : List Char) (a : α) : Prop where
  start : ∃ c rest, chars = c :: rest ∧ IsStart c
  takes : ∀ {gap after}, IsGap gap → Takes r (gap ++ (chars ++ after)) a after

variable {chars : List Char}

theorem Accepts.map {f : α → β} (h : Accepts r chars a) :
    Accepts (do return f (← r)) chars (f a) :=
  ⟨h.start, fun hgap => (h.takes hgap).map⟩

theorem accepts_text (s : String) : Accepts text (Json.quoted s).toList s := by
  have hquoted : (Json.quoted s).toList = '"' :: (s.toList.flatMap Json.escapeChar ++ ['"']) := by
    rw [Json.quoted, String.toList_ofList, List.cons_append]
  refine ⟨⟨_, _, hquoted, by decide⟩, fun {gap after} hgap => ?_⟩
  rw [hquoted, List.cons_append, List.append_assoc]
  refine (takes_valueStart hgap rfl).bind ?_
  exact takes_skip.bind (takes_stringContent s)

theorem accepts_bool (b : Bool) : Accepts bool (Json.ofBool b).toList b := by
  cases b with
  | true =>
    exact ⟨⟨'t', _, rfl, by decide⟩, fun hgap => (takes_valueStart hgap rfl).bind
      (takes_skip.bind ((takes_word ['r', 'u', 'e']).bind takes_pure))⟩
  | false =>
    exact ⟨⟨'f', _, rfl, by decide⟩, fun hgap => (takes_valueStart hgap rfl).bind
      (takes_skip.bind ((takes_word ['a', 'l', 's', 'e']).bind takes_pure))⟩

theorem Accepts.optional (h : Accepts r chars a) : Accepts (optional r) chars (some a) := by
  refine ⟨h.start, fun {gap after} hgap => ?_⟩
  obtain ⟨c, rest, rfl, hblank, -, hnull⟩ := h.start
  refine (takes_peek hgap hblank).bind ?_
  -- the value is not taken for `null`, and is read without the blanks
  split
  next heq => exact absurd (Option.some.inj heq) hnull
  next => exact (h.takes isGap_nil).map

/-! ### Lists -/

/-- What is left of a list or an object: parts with commas between them, and the closing bracket. -/
inductive Remaining (closing : Char) : Bool → List (List Char) → List Char → Prop
  | nil {isFirst : Bool} {gap : List Char} (hgap : IsGap gap) :
    Remaining closing isFirst [] (gap ++ [closing])
  | first {gap part chars : List Char} {parts : List (List Char)} (hgap : IsGap gap)
    (h : Remaining closing false parts chars) :
    Remaining closing true (part :: parts) (gap ++ (part ++ chars))
  | next {gap gap' part chars : List Char} {parts : List (List Char)} (hgap : IsGap gap)
    (hgap' : IsGap gap') (h : Remaining closing false parts chars) :
    Remaining closing false (part :: parts) (gap ++ ',' :: (gap' ++ (part ++ chars)))

variable {part : List Char} {parts : List (List Char)} {isFirst : Bool} {fuel : Nat}

/-- There is a comma before each part but the first, and a bracket behind all. -/
theorem Remaining.length_lt {closing : Char} (h : Remaining closing isFirst parts chars) :
    parts.length < chars.length + isFirst.toNat := by
  induction h with
  | nil _ =>
    simp only [List.length_append, List.length_cons, List.length_nil]
    omega
  | first _ _ ih | next _ _ _ ih =>
    simp only [List.length_append, List.length_cons, Bool.toNat_true, Bool.toNat_false] at ih ⊢
    omega

theorem takes_hasItem_nil (h : Remaining ']' isFirst [] chars) :
    Takes (hasItem isFirst) (chars ++ after) false (']' :: after) := by
  cases h with
  | nil hgap =>
    rw [List.append_assoc]
    exact (takes_peek hgap rfl).bind takes_pure

/-- The comma and the blanks before an item are taken, and the item is next. -/
theorem takes_hasItem (h : Remaining ']' isFirst (part :: parts) chars)
    (hstart : ∃ c rest, part = c :: rest ∧ IsStart c) : ∃ chars',
      Remaining ']' false parts chars' ∧
      Takes (hasItem isFirst) (chars ++ after) true (part ++ (chars' ++ after)) := by
  obtain ⟨c, rest, rfl, hblank, hclosing, -⟩ := hstart
  cases h with
  | first hgap h =>
    refine ⟨_, h, ?_⟩
    rw [List.append_assoc, List.append_assoc]
    refine (takes_peek hgap hblank).bind ?_
    -- what an item starts with is no closing bracket
    split
    next heq => cases heq
    next heq => exact absurd (Option.some.inj heq) hclosing
    next => exact takes_pure
  | next hgap hgap' h =>
    refine ⟨_, h, ?_⟩
    rw [List.append_assoc, List.cons_append, List.append_assoc, List.append_assoc]
    refine (takes_peek hgap rfl).bind (takes_skip.bind ?_)
    refine (takes_peek hgap' hblank).bind ?_
    split
    next heq => cases heq
    next heq => exact absurd (Option.some.inj heq) hclosing
    next => exact takes_pure

theorem takes_listEnd : Takes listEnd (']' :: after) () after :=
  (takes_peek isGap_nil rfl).bind takes_skip

theorem takes_items {as : List α} (h : List.Forall₂ (Accepts r) parts as)
    (hremaining : Remaining ']' isFirst parts chars) (hfuel : parts.length < fuel) :
    Takes (items r fuel isFirst) (chars ++ after) as (']' :: after) := by
  -- the fuel goes down with the parts that are left
  induction h generalizing isFirst chars fuel with
  | nil =>
    cases fuel with
    | zero => cases hfuel
    | succ fuel => exact (takes_hasItem_nil hremaining).bind takes_pure
  | cons ha _ ih =>
    cases fuel with
    | zero => cases hfuel
    | succ fuel =>
      obtain ⟨chars', hremaining', hitem⟩ := takes_hasItem hremaining ha.start
      refine hitem.bind ((ha.takes isGap_nil).bind ?_)
      exact (ih hremaining' (Nat.lt_of_succ_lt_succ hfuel)).map

/-- Parts between brackets. -/
def Bracketed (opening closing : Char) (parts : List (List Char)) (chars : List Char) : Prop :=
  ∃ rest, chars = opening :: rest ∧ Remaining closing true parts rest

theorem accepts_list {as : List α} (h : List.Forall₂ (Accepts r) parts as)
    (hchars : Bracketed '[' ']' parts chars) : Accepts (list r) chars as := by
  obtain ⟨rest, rfl, hremaining⟩ := hchars
  refine ⟨⟨_, _, rfl, by decide⟩, fun {gap after} hgap => ?_⟩
  refine (takes_valueStart hgap rfl).bind (takes_skip.bind (takes_get_bind fun offset => ?_))
  refine Takes.enclosed (takes_items h hremaining ?_) takes_listEnd
  -- the fuel is what is left of the text, and each part takes some of it
  have hlength : parts.length < rest.length + 1 := hremaining.length_lt
  show parts.length < (rest ++ after).length + 1
  rw [List.length_append]
  omega

/-! ### Records -/

section Records

variable {form : RecordForm σ} {field : Field σ} {fields done : List (Field σ)} {record record' : σ}
  {spell : Json → List Char} {values : List (String × Json)} {value : Json} {given : List String}
  {key : String}

/-- Values for some of the fields, in their order, lead from one record to another; required fields
are among them. -/
inductive Fills (spell : Json → List Char) :
    List (Field σ) → List (String × Json) → σ → σ → Prop
  | nil {record : σ} : Fills spell [] [] record record
  | given {field : Field σ} {fields : List (Field σ)} {values : List (String × Json)}
    {value : Json} {record record' record'' : σ}
    (hvalue : Accepts (field.read record) (spell value) record')
    (h : Fills spell fields values record' record'') :
    Fills spell (field :: fields) ((field.name, value) :: values) record record''
  | omitted {field : Field σ} {fields : List (Field σ)} {values : List (String × Json)}
    {record record' : σ} (hdefault : field.isRequired = false)
    (h : Fills spell fields values record record') :
    Fills spell (field :: fields) values record record'

theorem Fills.length_le (h : Fills spell fields values record record') :
    values.length ≤ fields.length := by
  induction h with
  | nil => exact Nat.le_refl 0
  | given _ _ ih => exact Nat.succ_le_succ ih
  | omitted _ _ ih => exact Nat.le_succ_of_le ih

/-- A field as it is written, with a gap between the colon and the value. -/
def entryChars (spell : Json → List Char) (gap : List Char) (entry : String × Json) : List Char :=
  (Json.quoted entry.1).toList ++ ':' :: (gap ++ spell entry.2)

theorem takes_hasKey_nil (h : Remaining '\x7d' isFirst [] chars) :
    Takes (hasKey isFirst) (chars ++ after) false ('\x7d' :: after) := by
  cases h with
  | nil hgap =>
    rw [List.append_assoc]
    exact (takes_peek hgap rfl).bind takes_pure

/-- The comma and the blanks before a key are taken, and the quote of the key is next. -/
theorem takes_hasKey (h : Remaining '\x7d' isFirst (('"' :: part) :: parts) chars) : ∃ chars',
    Remaining '\x7d' false parts chars' ∧
      Takes (hasKey isFirst) (chars ++ after) true ('"' :: (part ++ (chars' ++ after))) := by
  cases h with
  | first hgap h =>
    refine ⟨_, h, ?_⟩
    rw [List.append_assoc, List.append_assoc]
    exact (takes_peek hgap rfl).bind takes_pure
  | next hgap hgap' h =>
    refine ⟨_, h, ?_⟩
    rw [List.append_assoc, List.cons_append, List.append_assoc, List.append_assoc]
    refine (takes_peek hgap rfl).bind (takes_skip.bind ?_)
    exact (takes_peek hgap' rfl).bind takes_pure

theorem takes_objectEnd : Takes objectEnd ('\x7d' :: after) () after :=
  (takes_peek isGap_nil rfl).bind takes_skip

theorem takes_colon : Takes colon (':' :: after) () after :=
  (takes_peek isGap_nil rfl).bind takes_skip

theorem name_not_mem (hform : form.fields = done ++ field :: fields)
    (hnodup : (form.fields.map (·.name)).Nodup) : field.name ∉ done.map (·.name) := by
  rw [hform, List.map_append, List.nodup_append] at hnodup
  intro hmem
  exact hnodup.2.2 _ hmem _ List.mem_cons_self rfl

theorem find?_name (hform : form.fields = done ++ field :: fields)
    (hnodup : (form.fields.map (·.name)).Nodup) :
    form.fields.find? (·.name = field.name) = some field := by
  have hnone : done.find? (·.name = field.name) = none := by
    refine List.find?_eq_none.2 fun f hf hname => name_not_mem hform hnodup ?_
    exact List.mem_map.2 ⟨f, hf, of_decide_eq_true hname⟩
  rw [hform, List.find?_append, hnone, Option.none_or, List.find?_cons_of_pos (by simp)]

/-- One more field. -/
theorem takes_field (hform : form.fields = done ++ field :: fields)
    (hnodup : (form.fields.map (·.name)).Nodup) (hgiven : field.name ∉ given)
    (hvalue : Accepts (field.read record) (spell value) record') (hgap : IsGap gap)
    (hremaining : Remaining '\x7d' isFirst
      (entryChars spell gap (field.name, value) :: parts) chars) : ∃ chars',
    Remaining '\x7d' false parts chars' ∧
      ∀ {b : List String × σ},
        Takes (form.entries fuel false (field.name :: given) record') (chars' ++ after) b middle →
        Takes (form.entries (fuel + 1) isFirst given record) (chars ++ after) b middle := by
  have hentry : entryChars spell gap (field.name, value) =
      '"' :: (field.name.toList.flatMap Json.escapeChar ++
        '"' :: ':' :: (gap ++ spell value)) := by
    simp [entryChars, Json.quoted]
  rw [hentry] at hremaining
  obtain ⟨chars', hremaining', hkey⟩ := takes_hasKey hremaining
  refine ⟨chars', hremaining', fun {b} hnext => hkey.bind (takes_skip.bind ?_)⟩
  -- the key is followed up to its quote; no other field has this name, and it is not given yet
  rw [List.append_assoc, List.cons_append, List.cons_append, List.append_assoc]
  refine (takes_stringContent field.name).bind ?_
  rw [find?_name hform hnodup]
  show Takes (if given.contains field.name then _ else _) _ _ _
  rw [if_neg (by simpa using hgiven)]
  exact takes_colon.bind ((hvalue.takes hgap).bind hnext)

/-- The names given so far belong to fields that are done, and no required one of these is
missing. -/
structure Accounts (done : List (Field σ)) (given : List String) : Prop where
  names : ∀ name ∈ given, name ∈ done.map (·.name)
  required : ∀ field ∈ done, field.isRequired = true → field.name ∈ given

theorem accounts_nil : Accounts ([] : List (Field σ)) [] :=
  ⟨List.forall_mem_nil _, List.forall_mem_nil _⟩

theorem accounts_given (h : Accounts done given) (field : Field σ) :
    Accounts (done ++ [field]) (field.name :: given) where
  names name hname := by
    rw [List.map_append]
    rcases List.mem_cons.1 hname with rfl | hname
    · exact List.mem_append_right _ (List.mem_singleton_self _)
    · exact List.mem_append_left _ (h.names name hname)
  required f hf hisRequired := by
    rcases List.mem_append.1 hf with hf | hf
    · exact List.mem_cons_of_mem _ (h.required f hf hisRequired)
    · rw [List.mem_singleton.1 hf]
      exact List.mem_cons_self

theorem accounts_omitted (h : Accounts done given) (hdefault : field.isRequired = false) :
    Accounts (done ++ [field]) given where
  names name hname := by
    rw [List.map_append]
    exact List.mem_append_left _ (h.names name hname)
  required f hf hisRequired := by
    rcases List.mem_append.1 hf with hf | hf
    · exact h.required f hf hisRequired
    · rw [List.mem_singleton.1 hf, hdefault] at hisRequired
      cases hisRequired

/-- The fields behind those that are done. -/
theorem takes_entries (hform : form.fields = done ++ fields)
    (hnodup : (form.fields.map (·.name)).Nodup) (h : Fills spell fields values record record')
    (hgap : IsGap gap)
    (hremaining : Remaining '\x7d' isFirst (values.map (entryChars spell gap)) chars)
    (hfuel : values.length < fuel) (haccounts : Accounts done given) :
    ∃ given', Accounts form.fields given' ∧
      Takes (form.entries fuel isFirst given record) (chars ++ after) (given', record')
        ('\x7d' :: after) := by
  -- on the fields that are left; each moves to those that are done, given or not
  induction h generalizing done given isFirst chars fuel with
  | nil =>
    cases fuel with
    | zero => cases hfuel
    | succ fuel =>
      rw [List.append_nil] at hform
      exact ⟨given, hform ▸ haccounts, (takes_hasKey_nil hremaining).bind takes_pure⟩
  | @given field fields _ _ _ _ _ hvalue _ ih =>
    cases fuel with
    | zero => cases hfuel
    | succ fuel =>
      have hfresh : field.name ∉ given := fun hmem =>
        name_not_mem hform hnodup (haccounts.names _ hmem)
      obtain ⟨chars', hremaining', hfield⟩ := takes_field hform hnodup hfresh hvalue hgap hremaining
      rw [List.append_cons] at hform
      obtain ⟨given', haccounts', hrest⟩ :=
        ih hform hremaining' (Nat.lt_of_succ_lt_succ hfuel) (accounts_given haccounts field)
      exact ⟨given', haccounts', hfield hrest⟩
  | omitted hdefault _ ih =>
    rw [List.append_cons] at hform
    exact ih hform hremaining hfuel (accounts_omitted haccounts hdefault)

theorem accepts_record (hnodup : (form.fields.map (·.name)).Nodup)
    (h : Fills spell form.fields values form.blank record) (hgap : IsGap gap)
    (hchars : Bracketed '\x7b' '\x7d' (values.map (entryChars spell gap)) chars) :
    Accepts form.read chars record := by
  obtain ⟨rest, rfl, hremaining⟩ := hchars
  refine ⟨⟨_, _, rfl, by decide⟩, fun {gap' after} hgap' => ?_⟩
  refine (takes_valueStart hgap' rfl).bind (takes_skip.bind ?_)
  refine Takes.enclosed ?_ takes_objectEnd
  have hfuel : values.length < form.fields.length + 2 :=
    Nat.lt_succ_of_le (Nat.le_succ_of_le h.length_le)
  obtain ⟨given, haccounts, hentries⟩ :=
    takes_entries (List.nil_append _).symm hnodup h hgap hremaining hfuel accounts_nil
  refine hentries.bind ?_
  -- nothing that is required is missing
  have hnone : (form.fields.find? fun field => field.isRequired && !given.contains field.name) =
      none := by
    refine List.find?_eq_none.2 fun field hfield hmissing => ?_
    rw [Bool.and_eq_true] at hmissing
    have hmem := haccounts.required field hfield hmissing.1
    simp [hmem] at hmissing
  simp only [hnone]
  exact takes_pure

end Records

/-! ### Whole texts -/

theorem run_eq_ok (h : Accepts r chars a) : run r (String.ofList chars) = .ok a := by
  have hvalue : Takes r chars a [] := by
    have htakes : Takes r ([] ++ (chars ++ [])) a [] := h.takes isGap_nil
    rwa [List.nil_append, List.append_nil] at htakes
  have hfinish : Takes finish [] () [] := (takes_peekPastBlanks isGap_nil rfl).bind takes_pure
  have hwhole : Takes (do let a ← r; finish; return a) chars a [] :=
    hvalue.bind (hfinish.bind takes_pure)
  obtain ⟨offset, heq⟩ := hwhole 0
  unfold run
  rw [String.toList_ofList]
  simp only [heq]

end Reader
end CallChain
