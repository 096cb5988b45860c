import CallChain.Proofs.Grammar.Lexemes

/-!
# Pieces of a text

A scanner finds the longest lexeme at the front of a text, or fails on one character. A text is cut
into pieces by asking it again and again; what it fails on is collected until it succeeds or the
text ends (`Scanner.pieces`).

* `Scanner.IsLongestMatch.eq_firstMatch`: there is one such scanner.
* `pieces_firstMatch`: its pieces are the tokens of the text.
-/

namespace CallChain

variable {c : Char} {w : List Char}

/-! ### Scanners -/

/-- Reads on from a character: the kind of token that it begins, if any, and how many of the
characters behind it belong to what was read. -/
abbrev Scanner := Char → List Char → Option SyntaxKind × Nat

/-- What is found is a lexeme, and no longer one begins there. Where no lexeme begins, the scanner
fails on one character. -/
structure Scanner.IsLongestMatch (next : Scanner) : Prop where
  found : ∀ c rest kind more, next c rest = (some kind, more) →
    more ≤ rest.length ∧ c :: rest.take more ∈ kind.lexemes ∧
      ∀ (kind' : SyntaxKind) w, w <+: rest → c :: w ∈ kind'.lexemes → w.length ≤ more
  failed : ∀ c rest more, next c rest = (none, more) →
    more = 0 ∧ ∀ (kind : SyntaxKind) w, w <+: rest → c :: w ∉ kind.lexemes

/-- The scanner that goes by the first character. -/
def firstMatch : Scanner := fun c rest =>
  if (tokenClass c).1 = .garbage then (none, 0)
  else (some (tokenClass c).1, (rest.takeWhile (tokenClass c).2).length)

/-- A stretch of characters that satisfy a test, in front of a list, is part of the longest one. -/
theorem length_le_takeWhile {p : Char → Bool} {rest : List Char} (hfront : w <+: rest)
    (hw : ∀ d ∈ w, p d = true) : w.length ≤ (rest.takeWhile p).length := by
  obtain ⟨behind, rfl⟩ := hfront
  rw [List.takeWhile_append_of_pos hw, List.length_append]
  exact Nat.le_add_right _ _

theorem take_length_takeWhile (p : Char → Bool) (rest : List Char) :
    rest.take (rest.takeWhile p).length = rest.takeWhile p :=
  (List.prefix_iff_eq_take.1 (List.takeWhile_prefix p)).symm

theorem drop_length_takeWhile (p : Char → Bool) (rest : List Char) :
    rest.drop (rest.takeWhile p).length = rest.dropWhile p := by
  have h : (rest.takeWhile p ++ rest.dropWhile p).drop (rest.takeWhile p).length =
      rest.dropWhile p := List.drop_left
  rwa [List.takeWhile_append_dropWhile] at h

theorem isLongestMatch_firstMatch : firstMatch.IsLongestMatch where
  found c rest kind more h := by
    unfold firstMatch at h
    split at h
    next => cases h
    next hgarbage =>
      cases h
      refine ⟨(List.takeWhile_prefix _).length_le, ?_, fun kind' w hfront hw => ?_⟩
      · rw [take_length_takeWhile]
        exact cons_mem_lexemes_iff_ne_garbage.2
          ⟨rfl, hgarbage, List.all_eq_true.1 List.all_takeWhile⟩
      · exact length_le_takeWhile hfront (cons_mem_lexemes_iff_ne_garbage.1 hw).2.2
  failed c rest more h := by
    unfold firstMatch at h
    split at h
    next hgarbage =>
      cases h
      exact ⟨rfl, fun kind w _ hw => (cons_mem_lexemes_iff_ne_garbage.1 hw).2.1 hgarbage⟩
    next => cases h

/-- There is no other scanner for longest lexemes. -/
theorem Scanner.IsLongestMatch.eq_firstMatch {next : Scanner} (h : next.IsLongestMatch) :
    next = firstMatch := by
  funext c rest
  unfold firstMatch
  rcases hread : next c rest with ⟨found, more⟩
  cases found with
  | none =>
    obtain ⟨rfl, hnone⟩ := h.failed c rest more hread
    -- the character alone would be a lexeme
    by_cases hgarbage : (tokenClass c).1 = .garbage
    · rw [if_pos hgarbage]
    · have hlexeme := cons_mem_lexemes_iff_ne_garbage.2 ⟨rfl, hgarbage, List.forall_mem_nil _⟩
      exact absurd hlexeme (hnone _ [] List.nil_prefix)
  | some kind =>
    obtain ⟨hlength, hlexeme, hlongest⟩ := h.found c rest kind more hread
    obtain ⟨rfl, hgarbage, hall⟩ := cons_mem_lexemes_iff_ne_garbage.1 hlexeme
    rw [if_neg hgarbage]
    have hle := length_le_takeWhile (List.take_prefix more rest) hall
    have hge := hlongest _ _ (List.takeWhile_prefix _) (cons_mem_lexemes_iff_ne_garbage.2
      ⟨rfl, hgarbage, List.all_eq_true.1 List.all_takeWhile⟩)
    rw [List.length_take, Nat.min_eq_left hlength] at hle
    rw [Nat.le_antisymm hle hge]

/-! ### Pieces -/

/-- A kind of token, and where one of this kind stands. -/
abbrev Piece := SyntaxKind × Span

def Token.piece (t : Token) : Piece := (t.kind, t.span)

/-- What has been collected since an offset is garbage up to another one. -/
def collected (stop : Nat) : Option Nat → List Piece
  | some start => [(.garbage, ⟨start, stop⟩)]
  | none => []

/-- The pieces of the characters from an offset on, in a text that ends at `stop`. The scanner may
have been failing since an earlier offset. -/
def Scanner.piecesFrom (next : Scanner) (stop offset : Nat) (failing : Option Nat)
    (chars : List Char) : List Piece :=
  match chars with
  | [] => collected stop failing
  | c :: rest =>
    let more := (next c rest).2
    let behind := offset + (String.ofList (c :: rest.take more)).utf8ByteSize
    match (next c rest).1 with
    | some kind => collected offset failing ++
        (kind, ⟨offset, behind⟩) :: next.piecesFrom stop behind none (rest.drop more)
    | none => next.piecesFrom stop behind (some (failing.getD offset)) (rest.drop more)
termination_by chars.length
decreasing_by
  all_goals
    simp only [List.length_cons, List.length_drop]
    omega

/-- The pieces of a text. -/
def Scanner.pieces (next : Scanner) (source : String) : List Piece :=
  next.piecesFrom source.utf8ByteSize 0 none source.toList

theorem utf8ByteSize_ofList_cons (c : Char) (cs : List Char) :
    (String.ofList (c :: cs)).utf8ByteSize = c.utf8Size + (String.ofList cs).utf8ByteSize := by
  rw [String.ofList_cons, String.utf8ByteSize_append, String.utf8ByteSize_singleton]

/-- The size of a text is that of its first token and of what is behind it. -/
theorem utf8ByteSize_takeWhile_add_dropWhile (p : Char → Bool) (c : Char) (rest : List Char) :
    (String.ofList (c :: rest)).utf8ByteSize =
      (String.ofList (c :: rest.takeWhile p)).utf8ByteSize +
        (String.ofList (rest.dropWhile p)).utf8ByteSize := by
  rw [← String.utf8ByteSize_append, ← String.ofList_append, List.cons_append,
    List.takeWhile_append_dropWhile]

section Pieces

variable {stop offset : Nat} {failing : Option Nat} {rest : List Char}

theorem piecesFrom_of_ne_garbage (h : (tokenClass c).1 ≠ .garbage) :
    firstMatch.piecesFrom stop offset failing (c :: rest) =
      let behind := offset + (String.ofList (c :: rest.takeWhile (tokenClass c).2)).utf8ByteSize
      collected offset failing ++ ((tokenClass c).1, ⟨offset, behind⟩) ::
        firstMatch.piecesFrom stop behind none (rest.dropWhile (tokenClass c).2) := by
  have hread : firstMatch c rest =
      (some (tokenClass c).1, (rest.takeWhile (tokenClass c).2).length) := if_neg h
  rw [Scanner.piecesFrom, hread]
  dsimp only
  rw [take_length_takeWhile, drop_length_takeWhile]

theorem piecesFrom_of_garbage (h : (tokenClass c).1 = .garbage) :
    firstMatch.piecesFrom stop offset failing (c :: rest) =
      firstMatch.piecesFrom stop (offset + c.utf8Size) (some (failing.getD offset)) rest := by
  have hread : firstMatch c rest = (none, 0) := if_pos h
  rw [Scanner.piecesFrom, hread]
  dsimp only [List.take_zero, List.drop_zero]
  rw [utf8ByteSize_ofList_cons]
  rfl

/-- While the scanner is failing, stray characters are collected up to the next lexeme, or up to the
end of the text. -/
theorem piecesFrom_failing {start : Nat} {chars : List Char}
    (hstop : stop = offset + (String.ofList chars).utf8ByteSize) :
    firstMatch.piecesFrom stop offset (some start) chars =
      let behind := offset + (String.ofList (chars.takeWhile startsNothing)).utf8ByteSize
      (.garbage, ⟨start, behind⟩) ::
        firstMatch.piecesFrom stop behind none (chars.dropWhile startsNothing) := by
  induction chars generalizing offset with
  | nil =>
    rw [Scanner.piecesFrom, hstop]
    dsimp only [List.takeWhile_nil, List.dropWhile_nil]
    rw [Scanner.piecesFrom]
    rfl
  | cons c rest ih =>
    by_cases hstray : startsNothing c = true
    · have hclass : (tokenClass c).1 = .garbage := by rw [tokenClass_stray hstray]
      rw [utf8ByteSize_ofList_cons, ← Nat.add_assoc] at hstop
      rw [piecesFrom_of_garbage hclass, Option.getD_some, ih hstop,
        List.takeWhile_cons_of_pos hstray, List.dropWhile_cons_of_pos hstray]
      dsimp only
      rw [utf8ByteSize_ofList_cons, Nat.add_assoc]
    · have hclass : (tokenClass c).1 ≠ .garbage := by
        rw [ne_eq, tokenClass_eq_garbage_iff]
        exact hstray
      rw [List.takeWhile_cons_of_neg hstray, List.dropWhile_cons_of_neg hstray,
        piecesFrom_of_ne_garbage hclass]
      show _ = (_, _) :: firstMatch.piecesFrom stop (offset + 0) none (c :: rest)
      rw [Nat.add_zero, piecesFrom_of_ne_garbage hclass]
      rfl

/-- The pieces are the tokens. -/
theorem piecesFrom_firstMatch {chars : List Char}
    (hstop : stop = offset + (String.ofList chars).utf8ByteSize) :
    firstMatch.piecesFrom stop offset none chars = (tokensFrom offset chars).map Token.piece := by
  fun_induction tokensFrom offset chars with
  | case1 offset =>
    rw [Scanner.piecesFrom]
    rfl
  | case2 offset c rest continues first ih =>
    have hbehind : stop =
        first.span.stop + (String.ofList (rest.dropWhile continues)).utf8ByteSize := by
      rw [hstop, utf8ByteSize_takeWhile_add_dropWhile continues, ← Nat.add_assoc]
      rfl
    rw [List.map_cons, ← ih hbehind]
    by_cases hgarbage : (tokenClass c).1 = .garbage
    · -- the scanner fails, from the first character on
      have hcontinues : startsNothing = continues :=
        congrArg Prod.snd (tokenClass_stray (tokenClass_eq_garbage_iff.1 hgarbage)).symm
      have hrest : stop = offset + c.utf8Size + (String.ofList rest).utf8ByteSize := by
        rw [hstop, utf8ByteSize_ofList_cons, Nat.add_assoc]
      have hspan : offset + c.utf8Size +
          (String.ofList (rest.takeWhile continues)).utf8ByteSize = first.span.stop := by
        rw [Nat.add_assoc, ← utf8ByteSize_ofList_cons]
        rfl
      have hpiece : first.piece = (.garbage, ⟨offset, first.span.stop⟩) :=
        congrArg (·, first.span) hgarbage
      rw [piecesFrom_of_garbage hgarbage, piecesFrom_failing hrest, hcontinues, hspan, hpiece]
      rfl
    · rw [piecesFrom_of_ne_garbage hgarbage]
      rfl

theorem pieces_firstMatch (source : String) :
    firstMatch.pieces source = (tokens source).map Token.piece := by
  apply piecesFrom_firstMatch
  rw [Nat.zero_add, String.ofList_toList]

end Pieces

end CallChain
