import CallChain.Proofs.Grammar.Pieces
import CallChain.Proofs.Tiling
import Mathlib.Data.List.Chain

/-!
# Tokenizations

A tokenization cuts a text into pieces that have the classes of their kinds, and cuts nothing in two
that is one token: neither garbage nor blanks stand side by side, and no identifier stands in front
of a character that would continue it. The tokens of a text are a tokenization of it, and there is
no other one.

* `isTokenization_tokens`: the tokens are one.
* `eq_tokensFrom`: they are the only one.
* `tokens_exact`: both, for the pieces that a scanner for longest lexemes finds.
-/

namespace CallChain

/-- A token is not continued by the one behind it. -/
structure Token.Apart (t u : Token) : Prop where
  garbage : ¬ (t.kind = .garbage ∧ u.kind = .garbage)
  whitespace : ¬ (t.kind = .whitespace ∧ u.kind = .whitespace)
  identifier : t.kind = .id → ∀ d, u.text.toList.head? = some d → d ∉ nameChars

/-- Tokens follow one another from the beginning of a text to its end, and the text has them in
their places. -/
structure IsTokenization (source : String) (ts : List Token) : Prop where
  tiles : Tiles 0 (ts.map fun t => (t.span.start, t.span.stop)) source.utf8ByteSize
  spelled : ∀ t ∈ ts, SpelledAt source t.text t.span
  classified : ∀ t ∈ ts, t.text.toList ∈ t.kind.texts
  apart : ts.IsChain Token.Apart

variable {c d : Char} {v w chars rest : List Char} {t u : Token} {ts : List Token}
  {start stop : Nat}

/-! ### Neighbours -/

theorem exists_cons_of_mem_texts (h : t.text.toList ∈ t.kind.texts) : ∃ c w,
    t.text.toList = c :: w ∧ t.kind = (tokenClass c).1 ∧ ∀ d ∈ w, (tokenClass c).2 d = true := by
  cases htext : t.text.toList with
  | nil =>
    rw [htext] at h
    exact absurd h nil_not_mem_texts
  | cons c w =>
    rw [htext] at h
    exact ⟨c, w, rfl, cons_mem_texts_iff.1 h⟩

/-- Tokens are apart if the second one begins with a character that does not continue the first. -/
theorem apart_iff (ht : t.kind = (tokenClass c).1) (hu : u.kind = (tokenClass d).1)
    (htext : u.text.toList = d :: v) : t.Apart u ↔ (tokenClass c).2 d = false := by
  have happart : t.Apart u ↔ ¬ (t.kind = .garbage ∧ startsNothing d = true) ∧
      ¬ (t.kind = .whitespace ∧ isBlank d = true) ∧ ¬ (t.kind = .id ∧ isNameChar d = true) := by
    rw [← tokenClass_eq_garbage_iff, ← tokenClass_eq_whitespace_iff, isNameChar_iff, ← hu]
    constructor
    · intro h
      exact ⟨h.garbage, h.whitespace, fun hid => h.identifier hid.1 d (by rw [htext]; rfl) hid.2⟩
    · rintro ⟨hgarbage, hblank, hid⟩
      refine ⟨hgarbage, hblank, fun hkind d' hd' hchar => hid ⟨hkind, ?_⟩⟩
      rw [htext] at hd'
      cases hd'
      exact hchar
  rw [happart, ht]
  rcases tokenClass_cases c with ⟨kind, hc, heq⟩ | ⟨-, heq⟩ | ⟨-, heq⟩ | ⟨-, heq⟩
  all_goals rw [heq]
  · obtain ⟨-, htrivia, hid⟩ := of_symbolKind? hc
    have hblank : kind ≠ .whitespace := fun h => by simp [h, SyntaxKind.isTrivia] at htrivia
    have hgarbage : kind ≠ .garbage := fun h => by
      rw [h, ← symbol?_eq_some_iff] at hc
      cases hc
    simp [hid, hblank, hgarbage]
  · simp
  · simp
  · simp

/-! ### The tokens of a text -/

theorem head_dropWhile {p : Char → Bool} (h : rest.dropWhile p = d :: v) : p d = false := by
  have hhead := List.head?_dropWhile_not p rest
  rw [h] at hhead
  exact hhead

theorem tiles_tokensFrom (start : Nat) (chars : List Char) :
    Tiles start ((tokensFrom start chars).map fun t => (t.span.start, t.span.stop))
      (start + (String.ofList chars).utf8ByteSize) := by
  fun_induction tokensFrom start chars with
  | case1 start => exact .nil
  | case2 start c rest continues first ih =>
    have hpos : 0 < first.text.utf8ByteSize := by
      rw [utf8ByteSize_ofList_cons]
      exact Nat.add_pos_left c.utf8Size_pos _
    rw [utf8ByteSize_takeWhile_add_dropWhile continues, ← Nat.add_assoc]
    exact .cons (Nat.lt_add_of_pos_right hpos) ih

theorem mem_texts_of_mem_tokensFrom (h : t ∈ tokensFrom start chars) :
    t.text.toList ∈ t.kind.texts := by
  fun_induction tokensFrom start chars with
  | case1 => cases h
  | case2 start c rest continues first ih =>
    rcases List.mem_cons.1 h with rfl | h
    · show (String.ofList (c :: rest.takeWhile continues)).toList ∈ _
      rw [String.toList_ofList]
      exact cons_mem_texts_iff.2 ⟨rfl, List.all_eq_true.1 List.all_takeWhile⟩
    · exact ih h

theorem isChain_tokensFrom (start : Nat) (chars : List Char) :
    (tokensFrom start chars).IsChain Token.Apart := by
  fun_induction tokensFrom start chars with
  | case1 => exact .nil
  | case2 start c rest continues first ih =>
    refine List.isChain_cons.2 ⟨fun u hu => ?_, ih⟩
    cases hrest : rest.dropWhile continues with
    | nil =>
      rw [hrest, tokensFrom] at hu
      cases hu
    | cons d behind =>
      rw [hrest, tokensFrom] at hu
      cases hu
      exact (apart_iff rfl rfl String.toList_ofList).2 (head_dropWhile hrest)

theorem isTokenization_tokens (source : String) : IsTokenization source (tokens source) where
  tiles := by
    have h := tiles_tokensFrom 0 source.toList
    rwa [Nat.zero_add, String.ofList_toList] at h
  spelled _ := spells_of_mem_tokens
  classified _ := mem_texts_of_mem_tokensFrom
  apart := isChain_tokensFrom 0 source.toList

/-! ### No other tokenization -/

/-- Beginnings of one text that have one size are one. -/
theorem eq_of_utf8ByteSize_eq {before before' : List Char} (h : before ++ v = before' ++ w)
    (hsize : (String.ofList before).utf8ByteSize = (String.ofList before').utf8ByteSize) :
    before = before' ∧ v = w := by
  have hnil {cs : List Char} (h : (String.ofList cs).utf8ByteSize = 0) : cs = [] := by
    cases cs with
    | nil => rfl
    | cons c cs =>
      rw [utf8ByteSize_ofList_cons] at h
      have := c.utf8Size_pos
      omega
  rcases List.append_eq_append_iff.1 h with ⟨more, rfl, rfl⟩ | ⟨more, rfl, rfl⟩
  all_goals
    rw [String.ofList_append, String.utf8ByteSize_append] at hsize
    have hmore : more = [] := hnil (by omega)
    simp [hmore]

/-- What follows one another in a text up to its end, put together, is the rest of the text. -/
theorem flatMap_text_of_tiles {source : String} {before : List Char}
    (hsource : source.toList = before ++ rest)
    (htiles : Tiles (String.ofList before).utf8ByteSize
      (ts.map fun t => (t.span.start, t.span.stop)) source.utf8ByteSize)
    (hspelled : ∀ t ∈ ts, SpelledAt source t.text t.span) :
    ts.flatMap (·.text.toList) = rest := by
  induction ts generalizing before rest with
  | nil =>
    have hend :
        (String.ofList source.toList).utf8ByteSize = (String.ofList before).utf8ByteSize := by
      rw [String.ofList_toList]
      exact (Tiles.nil_iff.1 htiles).symm
    exact (eq_of_utf8ByteSize_eq ((List.append_nil _).trans hsource) hend).2
  | cons t ts ih =>
    obtain ⟨hstart, -, htail⟩ : t.span.start = _ ∧ _ ∧ Tiles t.span.stop _ _ :=
      Tiles.cons_iff.1 htiles
    obtain ⟨front, behind, heq, hspan⟩ := hspelled t List.mem_cons_self
    have hfront : (String.ofList before).utf8ByteSize =
        (String.ofList front.toList).utf8ByteSize := by
      rw [String.ofList_toList, ← hstart]
      exact congrArg Span.start hspan
    have hlist : before ++ rest = front.toList ++ (t.text.toList ++ behind.toList) := by
      rw [← hsource, heq, String.toList_append, String.toList_append, List.append_assoc]
    obtain ⟨rfl, rfl⟩ := eq_of_utf8ByteSize_eq hlist hfront
    have hbefore : t.span.stop = (String.ofList (front.toList ++ t.text.toList)).utf8ByteSize := by
      rw [String.ofList_append, String.utf8ByteSize_append, String.ofList_toList,
        String.ofList_toList]
      exact congrArg Span.stop hspan
    rw [hbefore] at htail
    rw [← List.append_assoc] at hsource
    rw [List.flatMap_cons, ih hsource htail fun u hu => hspelled u (List.mem_cons_of_mem t hu)]

/-- Tokens that follow one another, have the classes of their kinds and are apart are the tokens of
their characters. -/
theorem eq_tokensFrom (htiles : Tiles start (ts.map fun t => (t.span.start, t.span.stop)) stop)
    (hclass : ∀ t ∈ ts, t.text.toList ∈ t.kind.texts) (hapart : ts.IsChain Token.Apart) :
    ts = tokensFrom start (ts.flatMap (·.text.toList)) := by
  induction ts generalizing start with
  | nil =>
    rw [List.flatMap_nil, tokensFrom]
  | cons t ts ih =>
    obtain ⟨hstart, -, htail⟩ := Tiles.cons_iff.1 htiles
    obtain ⟨c, w, htext, hkind, hw⟩ := exists_cons_of_mem_texts (hclass t List.mem_cons_self)
    obtain ⟨hnext, hchain⟩ := List.isChain_cons.1 hapart
    have hstops : ∀ d, (ts.flatMap (·.text.toList)).head? = some d →
        (tokenClass c).2 d = false := by
      intro d hd
      cases ts with
      | nil => cases hd
      | cons u us =>
        have hu := hclass u (List.mem_cons_of_mem t List.mem_cons_self)
        obtain ⟨d', v, hutext, hukind, -⟩ := exists_cons_of_mem_texts hu
        rw [List.flatMap_cons, hutext] at hd
        cases hd
        exact (apart_iff hkind hukind hutext).1 (hnext u rfl)
    have htoken : t = ⟨(tokenClass c).1, start, String.ofList (c :: w)⟩ := by
      rw [← hkind, ← hstart, ← htext, String.ofList_toList]
      rfl
    have hrest := ih htail (fun u hu => hclass u (List.mem_cons_of_mem t hu)) hchain
    rw [List.flatMap_cons, htext, List.cons_append, tokensFrom, takeWhile_append_eq hw hstops,
      dropWhile_append_eq hw hstops, ← htoken, ← hrest]

theorem isTokenization_iff {source : String} : IsTokenization source ts ↔ ts = tokens source := by
  constructor
  · intro h
    have htext : ts.flatMap (·.text.toList) = source.toList :=
      flatMap_text_of_tiles (List.nil_append _).symm h.tiles h.spelled
    rw [tokens, ← htext]
    exact eq_tokensFrom h.tiles h.classified h.apart
  · rintro rfl
    exact isTokenization_tokens source

/-- The pieces that a scanner for longest lexemes finds are the tokens of the text, and these are
the one tokenization that it has. -/
theorem tokens_exact {next : Scanner} (h : next.IsLongestMatch) (source : String) :
    next.pieces source = (tokens source).map Token.piece ∧
      ∀ ts, IsTokenization source ts ↔ ts = tokens source := by
  rw [h.eq_firstMatch]
  exact ⟨pieces_firstMatch source, fun ts => isTokenization_iff⟩

/-- Garbage at both ends, the first of two characters in three bytes. -/
theorem tokens_exact_strays : firstMatch.IsLongestMatch ∧
    firstMatch.pieces "1é_x\t\n9$" =
      [(.garbage, ⟨0, 3⟩), (.id, ⟨3, 5⟩), (.whitespace, ⟨5, 7⟩), (.garbage, ⟨7, 9⟩)] ∧
    ∀ ts, IsTokenization "1é_x\t\n9$" ts ↔ ts = tokens "1é_x\t\n9$" := by
  obtain ⟨hpieces, hunique⟩ := tokens_exact isLongestMatch_firstMatch "1é_x\t\n9$"
  refine ⟨isLongestMatch_firstMatch, hpieces.trans ?_, hunique⟩
  decide +kernel

end CallChain
