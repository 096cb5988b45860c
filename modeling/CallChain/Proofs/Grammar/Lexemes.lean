import CallChain.Proofs.Grammar.Scanning
import Mathlib.Computability.Language
import Mathlib.Data.Char
import Mathlib.Order.Interval.Set.Defs

/-!
# Lexemes

The lexemes of a kind of tokens are a regular language: a symbol, the identifiers, or the blanks. A
character that no lexeme begins with is a stray one, and garbage is made of these.

* `cons_mem_texts_iff`: the first character of a token tells its kind, and which characters it can
  go on with.
* `cons_mem_lexemes_iff_ne_garbage`: lexemes are the tokens that are not garbage.
-/

open scoped Computability

namespace CallChain

/-! ### Classes of characters -/

def nameStarts : Set Char := Set.Icc 'A' 'Z' ∪ Set.Icc 'a' 'z' ∪ {'_'}

def nameChars : Set Char := nameStarts ∪ Set.Icc '0' '9'

def blanks : Set Char := {' ', '\t', '\r', '\n'}

variable {c d : Char} {w : List Char} {kind : SyntaxKind}

theorem isUpper_iff_mem_Icc : c.isUpper = true ↔ c ∈ Set.Icc 'A' 'Z' := by
  show decide ('A'.val ≤ c.val ∧ c.val ≤ 'Z'.val) = true ↔ 'A'.val ≤ c.val ∧ c.val ≤ 'Z'.val
  rw [decide_eq_true_iff]

theorem isLower_iff_mem_Icc : c.isLower = true ↔ c ∈ Set.Icc 'a' 'z' := by
  show (decide ('a'.val ≤ c.val) && decide (c.val ≤ 'z'.val)) = true ↔
    'a'.val ≤ c.val ∧ c.val ≤ 'z'.val
  rw [Bool.and_eq_true, decide_eq_true_iff, decide_eq_true_iff]

theorem isNameStart_iff : isNameStart c = true ↔ c ∈ nameStarts := by
  show ((c.isUpper || c.isLower) || decide (c = '_')) = true ↔
    (c ∈ Set.Icc 'A' 'Z' ∨ c ∈ Set.Icc 'a' 'z') ∨ c = '_'
  rw [Bool.or_eq_true, Bool.or_eq_true, isUpper_iff_mem_Icc, isLower_iff_mem_Icc,
    decide_eq_true_iff]

theorem isNameChar_iff : isNameChar c = true ↔ c ∈ nameChars := by
  rw [isNameChar, Bool.or_eq_true, isNameStart_iff]
  simp [nameChars, Char.isDigit, Char.le_def]

theorem isBlank_iff : isBlank c = true ↔ c ∈ blanks := by
  simp [isBlank, blanks, or_assoc]

/-! ### Regular languages -/

/-- The texts of one character from a class. -/
def oneOf (cs : Set Char) : Language Char := {w | ∃ c ∈ cs, w = [c]}

theorem mem_kstar_oneOf_iff {cs : Set Char} : w ∈ (oneOf cs)∗ ↔ ∀ c ∈ w, c ∈ cs := by
  rw [Language.mem_kstar]
  constructor
  · rintro ⟨ws, rfl, hws⟩ c hc
    obtain ⟨v, hv, hcv⟩ := List.mem_flatten.1 hc
    obtain ⟨d, hd, rfl⟩ := hws v hv
    rw [List.mem_singleton.1 hcv]
    exact hd
  · intro h
    refine ⟨w.map fun c => [c], ?_, fun v hv => ?_⟩
    · rw [← List.flatMap_def, List.flatMap_singleton']
    · obtain ⟨c, hc, rfl⟩ := List.mem_map.1 hv
      exact ⟨c, h c hc, rfl⟩

/-- A character from one class, and any number of characters from another one. -/
theorem cons_mem_oneOf_mul_iff {cs ds : Set Char} :
    c :: w ∈ oneOf cs * (oneOf ds)∗ ↔ c ∈ cs ∧ ∀ d ∈ w, d ∈ ds := by
  rw [Language.mem_mul]
  constructor
  · rintro ⟨_, ⟨c, hc, rfl⟩, v, hv, heq⟩
    cases heq
    exact ⟨hc, mem_kstar_oneOf_iff.1 hv⟩
  · rintro ⟨hc, hw⟩
    exact ⟨[c], ⟨c, hc, rfl⟩, w, mem_kstar_oneOf_iff.2 hw, rfl⟩

theorem nil_not_mem_oneOf_mul {cs : Set Char} {L : Language Char} : [] ∉ oneOf cs * L := by
  rw [Language.mem_mul]
  rintro ⟨_, ⟨c, -, rfl⟩, v, -, heq⟩
  cases heq

/-! ### Lexemes -/

namespace SyntaxKind

/-- The symbol that a token of a kind consists of. -/
def symbol? : SyntaxKind → Option Char
  | parenOpen => some '('
  | parenClose => some ')'
  | angleOpen => some '<'
  | angleClose => some '>'
  | pipe => some '|'
  | star => some '*'
  | plus => some '+'
  | question => some '?'
  | caret => some '^'
  | slash => some '/'
  | bang => some '!'
  | _ => none

/-- The lexemes of a kind. Garbage has none. -/
def lexemes : SyntaxKind → Language Char
  | .id => oneOf nameStarts * (oneOf nameChars)∗
  | .whitespace => oneOf blanks * (oneOf blanks)∗
  | kind => {w | ∃ c, kind.symbol? = some c ∧ w = [c]}

end SyntaxKind

/-- The characters that no lexeme begins with. -/
def strays : Set Char := {c | ∀ (kind : SyntaxKind) (w : List Char), c :: w ∉ kind.lexemes}

/-- The texts that tokens of a kind can have. -/
def SyntaxKind.texts : SyntaxKind → Language Char
  | .garbage => oneOf strays * (oneOf strays)∗
  | kind => kind.lexemes

theorem symbol?_eq_some_iff : kind.symbol? = some c ↔ symbolKind? c = some kind := by
  constructor
  · intro h
    cases kind <;> cases h <;> rfl
  · fun_cases symbolKind? c <;> intro h <;> cases h <;> subst_vars <;> rfl

theorem cons_mem_lexemes_id_iff :
    c :: w ∈ SyntaxKind.id.lexemes ↔ isNameStart c = true ∧ ∀ d ∈ w, isNameChar d = true := by
  simp only [isNameStart_iff, isNameChar_iff]
  exact cons_mem_oneOf_mul_iff

theorem cons_mem_lexemes_whitespace_iff :
    c :: w ∈ SyntaxKind.whitespace.lexemes ↔ isBlank c = true ∧ ∀ d ∈ w, isBlank d = true := by
  simp only [isBlank_iff]
  exact cons_mem_oneOf_mul_iff

theorem mem_lexemes_of_ne (hid : kind ≠ .id) (hblank : kind ≠ .whitespace) :
    w ∈ kind.lexemes ↔ ∃ c, kind.symbol? = some c ∧ w = [c] := by
  cases kind with
  | id => exact absurd rfl hid
  | whitespace => exact absurd rfl hblank
  | _ => exact Iff.rfl

theorem cons_mem_lexemes_iff : c :: w ∈ kind.lexemes ↔
    (symbolKind? c = some kind ∧ w = []) ∨
    (kind = .id ∧ isNameStart c = true ∧ ∀ d ∈ w, isNameChar d = true) ∨
    (kind = .whitespace ∧ isBlank c = true ∧ ∀ d ∈ w, isBlank d = true) := by
  by_cases hid : kind = .id
  · subst hid
    have hsymbol : symbolKind? c ≠ some .id := fun h => (of_symbolKind? h).2.2 rfl
    rw [cons_mem_lexemes_id_iff]
    simp [hsymbol]
  by_cases hblank : kind = .whitespace
  · subst hblank
    have hsymbol : symbolKind? c ≠ some .whitespace := fun h => nomatch (of_symbolKind? h).2.1
    rw [cons_mem_lexemes_whitespace_iff]
    simp [hsymbol]
  · rw [mem_lexemes_of_ne hid hblank]
    simp [hid, hblank, symbol?_eq_some_iff]

theorem nil_not_mem_lexemes : [] ∉ kind.lexemes := by
  by_cases hid : kind = .id
  · subst hid
    exact nil_not_mem_oneOf_mul
  by_cases hblank : kind = .whitespace
  · subst hblank
    exact nil_not_mem_oneOf_mul
  · rw [mem_lexemes_of_ne hid hblank]
    simp

/-- Garbage begins with the characters that begin nothing else. -/
theorem startsNothing_iff : startsNothing c = true ↔ c ∈ strays := by
  rw [startsNothing, Bool.and_eq_true, Bool.and_eq_true, Option.isNone_iff_eq_none,
    Bool.not_eq_true', Bool.not_eq_true']
  constructor
  · rintro ⟨⟨hsymbol, hname⟩, hblank⟩ kind w hmem
    rcases cons_mem_lexemes_iff.1 hmem with ⟨h, -⟩ | ⟨-, h, -⟩ | ⟨-, h, -⟩
    · cases hsymbol.symm.trans h
    · cases hname.symm.trans h
    · cases hblank.symm.trans h
  · intro h
    refine ⟨⟨?_, ?_⟩, ?_⟩
    · by_contra hsymbol
      obtain ⟨kind, hkind⟩ := Option.ne_none_iff_exists'.1 hsymbol
      exact h kind [] (cons_mem_lexemes_iff.2 (.inl ⟨hkind, rfl⟩))
    · by_contra hname
      exact h .id [] (cons_mem_lexemes_iff.2 (.inr (.inl ⟨rfl, by simpa using hname, by simp⟩)))
    · by_contra hblank
      exact h .whitespace []
        (cons_mem_lexemes_iff.2 (.inr (.inr ⟨rfl, by simpa using hblank, by simp⟩)))

theorem mem_texts_of_mem_lexemes (h : w ∈ kind.lexemes) : w ∈ kind.texts := by
  unfold SyntaxKind.texts
  split
  next =>
    obtain ⟨c, hc, -⟩ := h
    cases hc
  next => exact h

/-- The first character tells the kind of a token, and which characters it can go on with. -/
theorem cons_mem_texts_iff : c :: w ∈ kind.texts ↔
    kind = (tokenClass c).1 ∧ ∀ d ∈ w, (tokenClass c).2 d = true := by
  constructor
  · intro h
    unfold SyntaxKind.texts at h
    split at h
    next =>
      obtain ⟨hc, hw⟩ := cons_mem_oneOf_mul_iff.1 h
      rw [tokenClass_stray (startsNothing_iff.2 hc)]
      exact ⟨rfl, fun d hd => startsNothing_iff.2 (hw d hd)⟩
    next =>
      rcases cons_mem_lexemes_iff.1 h with ⟨hc, rfl⟩ | ⟨rfl, hc, hw⟩ | ⟨rfl, hc, hw⟩
      · rw [tokenClass_symbol hc]
        exact ⟨rfl, fun d hd => nomatch hd⟩
      · rw [tokenClass_name hc]
        exact ⟨rfl, hw⟩
      · rw [tokenClass_blank hc]
        exact ⟨rfl, hw⟩
  · rintro ⟨rfl, hw⟩
    rcases tokenClass_cases c with ⟨kind, hc, heq⟩ | ⟨hc, heq⟩ | ⟨hc, heq⟩ | ⟨hc, heq⟩
    all_goals rw [heq] at hw ⊢
    · cases w with
      | nil => exact mem_texts_of_mem_lexemes (cons_mem_lexemes_iff.2 (.inl ⟨hc, rfl⟩))
      | cons d w => cases hw d List.mem_cons_self
    · exact mem_texts_of_mem_lexemes (cons_mem_lexemes_iff.2 (.inr (.inl ⟨rfl, hc, hw⟩)))
    · exact mem_texts_of_mem_lexemes (cons_mem_lexemes_iff.2 (.inr (.inr ⟨rfl, hc, hw⟩)))
    · exact cons_mem_oneOf_mul_iff.2
        ⟨startsNothing_iff.1 hc, fun d hd => startsNothing_iff.1 (hw d hd)⟩

theorem nil_not_mem_texts : [] ∉ kind.texts := by
  unfold SyntaxKind.texts
  split
  · exact nil_not_mem_oneOf_mul
  · exact nil_not_mem_lexemes

theorem tokenClass_eq_iff : (tokenClass c).1 = kind ↔ [c] ∈ kind.texts := by
  constructor
  · rintro rfl
    exact cons_mem_texts_iff.2 ⟨rfl, List.forall_mem_nil _⟩
  · exact fun h => (cons_mem_texts_iff.1 h).1.symm

theorem tokenClass_eq_whitespace_iff : (tokenClass c).1 = .whitespace ↔ isBlank c = true := by
  rw [tokenClass_eq_iff, isBlank_iff]
  show [c] ∈ oneOf blanks * (oneOf blanks)∗ ↔ _
  rw [cons_mem_oneOf_mul_iff]
  simp

theorem tokenClass_eq_garbage_iff : (tokenClass c).1 = .garbage ↔ startsNothing c = true := by
  rw [tokenClass_eq_iff, startsNothing_iff]
  show [c] ∈ oneOf strays * (oneOf strays)∗ ↔ _
  rw [cons_mem_oneOf_mul_iff]
  simp

theorem garbage_not_mem_lexemes : w ∉ SyntaxKind.garbage.lexemes := by
  rintro ⟨c, hc, -⟩
  cases hc

/-- Lexemes are the tokens that are not garbage. -/
theorem cons_mem_lexemes_iff_ne_garbage : c :: w ∈ kind.lexemes ↔
    kind = (tokenClass c).1 ∧ (tokenClass c).1 ≠ .garbage ∧
      ∀ d ∈ w, (tokenClass c).2 d = true := by
  constructor
  · intro h
    obtain ⟨rfl, hw⟩ := cons_mem_texts_iff.1 (mem_texts_of_mem_lexemes h)
    refine ⟨rfl, fun hgarbage => ?_, hw⟩
    rw [hgarbage] at h
    exact garbage_not_mem_lexemes h
  · rintro ⟨rfl, hgarbage, hw⟩
    have h := cons_mem_texts_iff.2 ⟨rfl, hw⟩
    unfold SyntaxKind.texts at h
    split at h
    next heq => exact absurd heq hgarbage
    next => exact h

end CallChain
