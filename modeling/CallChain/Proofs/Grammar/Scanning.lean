import CallChain.Proofs.Grammar.Tokens

/-!
# Scanning piece by piece

The tokens of a text that is put together from symbols, identifiers and blanks are the tokens of its
pieces, if no identifier is followed by a character that would continue it (`Scans`). Blanks may be
cut anywhere, since the grammar does not see them.

* `Scans.append`, `Scans.symbol`, `Scans.blank`: putting pieces together.
* `isIdentifier_of_mem_tokens`: what is scanned as an identifier is one.
* `exists_garbage_of_mem`: a character that is part of no other token makes garbage.
-/

namespace CallChain

/-! ### Character classes -/

/-- Is a text one identifier? -/
def isIdentifier (text : String) : Bool :=
  match text.toList with
  | [] => false
  | c :: cs => isNameStart c && cs.all isNameChar

theorem isIdentifier_iff {text : String} : isIdentifier text = true ↔
    ∃ c cs, text.toList = c :: cs ∧ isNameStart c = true ∧ ∀ d ∈ cs, isNameChar d = true := by
  unfold isIdentifier
  cases text.toList with
  | nil => simp
  | cons c cs =>
    rw [Bool.and_eq_true, List.all_eq_true]
    refine ⟨fun h => ⟨c, cs, rfl, h⟩, fun ⟨c', cs', heq, h⟩ => ?_⟩
    cases heq
    exact h

/-- No symbol is part of a name, and the grammar sees each of them, as something else than a
name. -/
theorem of_symbolKind? {c : Char} {kind : SyntaxKind} (h : symbolKind? c = some kind) :
    isNameChar c = false ∧ kind.isTrivia = false ∧ kind ≠ .id := by
  revert h
  fun_cases symbolKind? c <;> intro h <;> cases h <;> subst_vars <;> decide

/-- A blank is no symbol and no part of a name. -/
theorem of_isBlank {c : Char} (h : isBlank c = true) :
    symbolKind? c = none ∧ isNameChar c = false := by
  unfold isBlank at h
  simp only [Bool.or_eq_true, decide_eq_true_eq] at h
  rcases h with ((rfl | rfl) | rfl) | rfl <;> decide

theorem isNameChar_of_isNameStart {c : Char} (h : isNameStart c = true) : isNameChar c = true := by
  rw [isNameChar, h, Bool.true_or]

theorem symbolKind?_of_isNameStart {c : Char} (h : isNameStart c = true) :
    symbolKind? c = none := by
  cases hsymbol : symbolKind? c with
  | none => rfl
  | some kind =>
    have hchar := isNameChar_of_isNameStart h
    rw [(of_symbolKind? hsymbol).1] at hchar
    cases hchar

/-! ### The first token -/

theorem tokenClass_symbol {c : Char} {kind : SyntaxKind} (h : symbolKind? c = some kind) :
    tokenClass c = (kind, fun _ => false) := by
  rw [tokenClass, h]

theorem tokenClass_name {c : Char} (h : isNameStart c = true) :
    tokenClass c = (.id, isNameChar) := by
  rw [tokenClass, symbolKind?_of_isNameStart h]
  dsimp only
  rw [if_pos h]

theorem tokenClass_blank {c : Char} (h : isBlank c = true) :
    tokenClass c = (.whitespace, isBlank) := by
  obtain ⟨hsymbol, hchar⟩ := of_isBlank h
  have hname : isNameStart c = false := by
    rw [isNameChar, Bool.or_eq_false_iff] at hchar
    exact hchar.1
  rw [tokenClass, hsymbol]
  dsimp only
  rw [if_neg (by rw [hname]; decide), if_pos h]

theorem tokenClass_stray {c : Char} (h : startsNothing c = true) :
    tokenClass c = (.garbage, startsNothing) := by
  simp only [startsNothing, Bool.and_eq_true, Bool.not_eq_true', Option.isNone_iff_eq_none] at h
  obtain ⟨⟨hsymbol, hname⟩, hblank⟩ := h
  rw [tokenClass, hsymbol]
  dsimp only
  rw [if_neg (by rw [hname]; decide), if_neg (by rw [hblank]; decide)]

/-- What a token can begin with. -/
theorem tokenClass_cases (c : Char) :
    (∃ kind, symbolKind? c = some kind ∧ tokenClass c = (kind, fun _ => false)) ∨
    (isNameStart c = true ∧ tokenClass c = (.id, isNameChar)) ∨
    (isBlank c = true ∧ tokenClass c = (.whitespace, isBlank)) ∨
    (startsNothing c = true ∧ tokenClass c = (.garbage, startsNothing)) := by
  cases hsymbol : symbolKind? c with
  | some kind => exact .inl ⟨kind, rfl, tokenClass_symbol hsymbol⟩
  | none =>
    by_cases hname : isNameStart c = true
    · exact .inr (.inl ⟨hname, tokenClass_name hname⟩)
    by_cases hblank : isBlank c = true
    · exact .inr (.inr (.inl ⟨hblank, tokenClass_blank hblank⟩))
    have hstray : startsNothing c = true := by simp [startsNothing, hsymbol, hname, hblank]
    exact .inr (.inr (.inr ⟨hstray, tokenClass_stray hstray⟩))

theorem takeWhile_append_eq {p : Char → Bool} {cs rest : List Char} (hcs : ∀ c ∈ cs, p c = true)
    (hrest : ∀ c, rest.head? = some c → p c = false) : (cs ++ rest).takeWhile p = cs := by
  rw [List.takeWhile_append_of_pos hcs]
  have hstop : rest.takeWhile p = [] := by
    cases rest with
    | nil => rfl
    | cons c rest => rw [List.takeWhile_cons_of_neg (by rw [hrest c rfl]; decide)]
  rw [hstop, List.append_nil]

theorem dropWhile_append_eq {p : Char → Bool} {cs rest : List Char} (hcs : ∀ c ∈ cs, p c = true)
    (hrest : ∀ c, rest.head? = some c → p c = false) : (cs ++ rest).dropWhile p = rest := by
  rw [List.dropWhile_append_of_pos hcs]
  cases rest with
  | nil => rfl
  | cons c rest => rw [List.dropWhile_cons_of_neg (by rw [hrest c rfl]; decide)]

/-- Does a rest not continue a name? -/
def EndsName (rest : List Char) : Prop := ∀ d, rest.head? = some d → isNameChar d = false

theorem endsName_cons {c : Char} {cs : List Char} (h : isNameChar c = false) :
    EndsName (c :: cs) := by
  intro d hd
  cases hd
  exact h

section Visible

variable {c : Char} {cs rest : List Char} {kind : SyntaxKind}

theorem visible_cons_of_not_trivia {token : Token} {ts : List Token}
    (h : token.kind.isTrivia = false) : visible (token :: ts) = token :: visible ts :=
  List.filter_cons_of_pos (by rw [h]; rfl)

theorem visible_cons_of_trivia {token : Token} {ts : List Token}
    (h : token.kind.isTrivia = true) : visible (token :: ts) = visible ts :=
  List.filter_cons_of_neg (by rw [h]; decide)

theorem visible_symbol (h : symbolKind? c = some kind) (start : Nat) (rest : List Char) :
    ∃ token stop, token.kind = kind ∧
      visible (tokensFrom start (c :: rest)) = token :: visible (tokensFrom stop rest) := by
  rw [tokensFrom, tokenClass_symbol h]
  dsimp only
  have hdrop : rest.dropWhile (fun _ => false) = rest := by
    cases rest <;> rfl
  rw [visible_cons_of_not_trivia (of_symbolKind? h).2.1, hdrop]
  exact ⟨_, _, rfl, rfl⟩

theorem visible_name (h : isNameStart c = true) (hcs : ∀ d ∈ cs, isNameChar d = true)
    (hrest : EndsName rest) (start : Nat) :
    ∃ token stop, token.kind = .id ∧ token.text = String.ofList (c :: cs) ∧
      visible (tokensFrom start (c :: cs ++ rest)) = token :: visible (tokensFrom stop rest) := by
  rw [List.cons_append, tokensFrom, tokenClass_name h]
  dsimp only
  rw [takeWhile_append_eq hcs hrest, dropWhile_append_eq hcs hrest, visible_cons_of_not_trivia rfl]
  exact ⟨_, _, rfl, rfl, rfl⟩

/-- Taking one blank away shortens a token that the grammar does not see, or removes it. -/
theorem visible_blank (h : isBlank c = true) (start : Nat) (rest : List Char) :
    ∃ stop, visible (tokensFrom start (c :: rest)) = visible (tokensFrom stop rest) := by
  have hfirst : visible (tokensFrom start (c :: rest)) =
      visible (tokensFrom (start + (String.ofList (c :: rest.takeWhile isBlank)).utf8ByteSize)
        (rest.dropWhile isBlank)) := by
    rw [tokensFrom, tokenClass_blank h]
    exact visible_cons_of_trivia rfl
  rw [hfirst]
  cases rest with
  | nil => exact ⟨_, rfl⟩
  | cons d rest =>
    cases hd : isBlank d with
    | false =>
      rw [List.dropWhile_cons_of_neg (by rw [hd]; decide)]
      exact ⟨_, rfl⟩
    | true =>
      -- the shorter token ends where the longer one does
      refine ⟨start + (String.ofList [c]).utf8ByteSize, ?_⟩
      have hsplit : String.ofList (c :: d :: rest.takeWhile isBlank) =
          String.ofList [c] ++ String.ofList (d :: rest.takeWhile isBlank) := by
        rw [← String.ofList_append]
        rfl
      rw [List.takeWhile_cons_of_pos hd, List.dropWhile_cons_of_pos hd, hsplit,
        String.utf8ByteSize_append, ← Nat.add_assoc]
      symm
      rw [tokensFrom, tokenClass_blank hd]
      exact visible_cons_of_trivia rfl

end Visible

/-! ### Pieces -/

/-- Wherever characters stand before a rest that does not continue a name, what the grammar sees of
them is one of some sequences of tokens. -/
def Scans (cs : List Char) (P : List Token → Prop) : Prop :=
  ∀ start rest, EndsName rest → ∃ ts stop, P ts ∧
    visible (tokensFrom start (cs ++ rest)) = ts ++ visible (tokensFrom stop rest)

section Scans

variable {c : Char} {cs cs' : List Char} {kind : SyntaxKind} {P Q : List Token → Prop}

theorem scans_nil : Scans [] fun ts => ts = [] :=
  fun start _ _ => ⟨[], start, rfl, rfl⟩

theorem Scans.mono (h : Scans cs P) (himp : ∀ ts, P ts → Q ts) : Scans cs Q := by
  intro start rest hrest
  obtain ⟨ts, stop, hts, heq⟩ := h start rest hrest
  exact ⟨ts, stop, himp ts hts, heq⟩

/-- A symbol before a piece. -/
theorem Scans.symbol (h : Scans cs P) (hc : symbolKind? c = some kind) :
    Scans (c :: cs) fun ts => ∃ token u, token.kind = kind ∧ P u ∧ ts = token :: u := by
  intro start rest hrest
  obtain ⟨token, middle, hkind, htoken⟩ := visible_symbol hc start (cs ++ rest)
  obtain ⟨u, stop, hu, heq⟩ := h middle rest hrest
  refine ⟨token :: u, stop, ⟨token, u, hkind, hu, rfl⟩, ?_⟩
  rw [List.cons_append, htoken, heq, List.cons_append]

theorem scans_symbol (hc : symbolKind? c = some kind) :
    Scans [c] fun ts => ∃ token, token.kind = kind ∧ ts = [token] := by
  refine (scans_nil.symbol hc).mono fun ts hts => ?_
  obtain ⟨token, u, hkind, rfl, rfl⟩ := hts
  exact ⟨token, hkind, rfl⟩

/-- A blank before a piece is not seen. -/
theorem Scans.blank (h : Scans cs P) (hc : isBlank c = true) : Scans (c :: cs) P := by
  intro start rest hrest
  obtain ⟨middle, hmiddle⟩ := visible_blank hc start (cs ++ rest)
  obtain ⟨ts, stop, hts, heq⟩ := h middle rest hrest
  exact ⟨ts, stop, hts, hmiddle.trans heq⟩

theorem scans_name {text : String} (h : isIdentifier text = true) :
    Scans text.toList fun ts => ∃ token, token.kind = .id ∧ token.text = text ∧ ts = [token] := by
  intro start rest hrest
  obtain ⟨c, cs, htext, hc, hcs⟩ := isIdentifier_iff.1 h
  obtain ⟨token, stop, hkind, hname, heq⟩ := visible_name hc hcs hrest start
  refine ⟨[token], stop, ⟨token, hkind, ?_, rfl⟩, ?_⟩
  · rw [hname, ← htext, String.ofList_toList]
  · rw [htext, heq]
    rfl

/-- Two pieces, the second of which does not continue a name. -/
theorem Scans.append (h : Scans cs P) (h' : Scans cs' Q) (hends : EndsName cs') :
    Scans (cs ++ cs') fun ts => ∃ u v, P u ∧ Q v ∧ ts = u ++ v := by
  intro start rest hrest
  have hnext : EndsName (cs' ++ rest) := by
    cases cs' with
    | nil => exact hrest
    | cons c cs' => exact hends
  obtain ⟨u, middle, hu, hleft⟩ := h start (cs' ++ rest) hnext
  obtain ⟨v, stop, hv, hright⟩ := h' middle rest hrest
  refine ⟨u ++ v, stop, ⟨u, v, hu, hv, rfl⟩, ?_⟩
  rw [List.append_assoc, hleft, hright, List.append_assoc]

/-- A text that is one piece. -/
theorem Scans.visible_tokens {text : String} (h : Scans text.toList P) :
    P (visible (tokens text)) := by
  obtain ⟨ts, stop, hts, heq⟩ := h 0 [] fun d hd => nomatch hd
  have htokens : visible (tokens text) = ts := by
    rw [tokens, ← List.append_nil text.toList, heq, tokensFrom]
    exact List.append_nil ts
  rwa [htokens]

end Scans

/-! ### All tokens -/

theorem length_tokensFrom_le (start : Nat) (chars : List Char) :
    (tokensFrom start chars).length ≤ chars.length := by
  fun_induction tokensFrom start chars with
  | case1 => exact Nat.le_refl 0
  | case2 start c rest continues first ih =>
    have hdrop := (List.dropWhile_sublist continues (l := rest)).length_le
    rw [List.length_cons, List.length_cons]
    omega

/-- A text has no more words than characters. -/
theorem length_visible_tokens_le (text : String) :
    (visible (tokens text)).length ≤ text.length := by
  have hvisible : (visible (tokens text)).length ≤ (tokens text).length := List.length_filter_le _ _
  have htokens := length_tokensFrom_le 0 text.toList
  rw [String.length_toList] at htokens
  exact Nat.le_trans hvisible htokens

theorem isNameStart_of_tokenClass {c : Char} (h : (tokenClass c).1 = .id) :
    isNameStart c = true := by
  rcases tokenClass_cases c with ⟨kind, hc, heq⟩ | ⟨hc, -⟩ | ⟨-, heq⟩ | ⟨-, heq⟩
  · rw [heq] at h
    exact absurd h (of_symbolKind? hc).2.2
  · exact hc
  · rw [heq] at h
    cases h
  · rw [heq] at h
    cases h

theorem isIdentifier_of_mem_tokensFrom {start : Nat} {chars : List Char} {token : Token}
    (h : token ∈ tokensFrom start chars) (hkind : token.kind = .id) :
    isIdentifier token.text = true := by
  fun_induction tokensFrom start chars with
  | case1 => cases h
  | case2 start c rest continues first ih =>
    rcases List.mem_cons.1 h with rfl | htoken
    · have hname := isNameStart_of_tokenClass hkind
      refine isIdentifier_iff.2 ⟨c, rest.takeWhile continues, String.toList_ofList, hname, ?_⟩
      intro d hd
      have hcontinues : (tokenClass c).2 d = true := List.all_eq_true.1 List.all_takeWhile d hd
      rwa [tokenClass_name hname] at hcontinues
    · exact ih htoken

/-- What is scanned as an identifier is one. -/
theorem isIdentifier_of_mem_tokens {text : String} {token : Token} (h : token ∈ tokens text)
    (hkind : token.kind = .id) : isIdentifier token.text = true :=
  isIdentifier_of_mem_tokensFrom h hkind

/-- Different symbols are tokens of different kinds. -/
theorem symbolKind?_inj {c d : Char} {kind : SyntaxKind} (hc : symbolKind? c = some kind)
    (hd : symbolKind? d = some kind) : c = d := by
  revert hc hd
  fun_cases symbolKind? c <;> intro hc <;> cases hc <;> fun_cases symbolKind? d <;> intro hd <;>
    cases hd <;> simp_all only

/-- A token that is neither a name, nor blank, nor garbage is a symbol. -/
theorem exists_symbol_of_mem_tokensFrom {start : Nat} {chars : List Char} {token : Token}
    (h : token ∈ tokensFrom start chars) (hid : token.kind ≠ .id)
    (htrivia : token.kind.isTrivia = false) (hgarbage : token.kind ≠ .garbage) :
    ∃ c, symbolKind? c = some token.kind ∧ token.text = String.ofList [c] := by
  fun_induction tokensFrom start chars with
  | case1 => cases h
  | case2 start c rest continues first ih =>
    rcases List.mem_cons.1 h with rfl | htoken
    · rcases tokenClass_cases c with ⟨kind, hc, heq⟩ | ⟨-, heq⟩ | ⟨-, heq⟩ | ⟨-, heq⟩
      · have hcontinues : rest.takeWhile (tokenClass c).2 = [] := by
          rw [heq]
          cases rest <;> rfl
        refine ⟨c, hc.trans (congrArg (some ·.1) heq.symm), ?_⟩
        exact congrArg (fun cs => String.ofList (c :: cs)) hcontinues
      · exact absurd (congrArg Prod.fst heq) hid
      · have hkind : first.kind = .whitespace := congrArg Prod.fst heq
        rw [hkind] at htrivia
        cases htrivia
      · exact absurd (congrArg Prod.fst heq) hgarbage
    · exact ih htoken

/-- What is scanned as a symbol is the symbol. -/
theorem text_of_symbolKind? {text : String} {token : Token} {c : Char} (h : token ∈ tokens text)
    (hc : symbolKind? c = some token.kind) : token.text = String.ofList [c] := by
  have hkinds : token.kind ≠ .id ∧ token.kind.isTrivia = false ∧ token.kind ≠ .garbage := by
    revert hc
    generalize token.kind = kind
    fun_cases symbolKind? c <;> intro hc <;> cases hc <;> decide
  obtain ⟨d, hd, htext⟩ := exists_symbol_of_mem_tokensFrom h hkinds.1 hkinds.2.1 hkinds.2.2
  rw [htext, symbolKind?_inj hd hc]

/-- The class of a token that a character belongs to which is part of no other token. -/
theorem tokenClass_of_startsNothing {c d : Char} (hd : startsNothing d = true)
    (hname : isNameChar d = false) (h : d = c ∨ (tokenClass c).2 d = true) :
    (tokenClass c).1 = .garbage := by
  rcases h with rfl | h
  · rw [tokenClass_stray hd]
  · rcases tokenClass_cases c with ⟨kind, -, heq⟩ | ⟨-, heq⟩ | ⟨-, heq⟩ | ⟨-, heq⟩
    all_goals rw [heq] at h ⊢
    · cases h
    · cases hname.symm.trans h
    · simp only [startsNothing, Bool.and_eq_true, Bool.not_eq_true'] at hd
      cases hd.2.symm.trans h

/-- Such a character makes garbage, wherever it stands. -/
theorem exists_garbage_of_mem (start : Nat) {chars : List Char} {d : Char}
    (hd : startsNothing d = true) (hname : isNameChar d = false) (h : d ∈ chars) :
    ∃ token ∈ tokensFrom start chars, token.kind = .garbage := by
  fun_induction tokensFrom start chars with
  | case1 => cases h
  | case2 start c rest continues first ih =>
    have hcases : (d = c ∨ continues d = true) ∨ d ∈ rest.dropWhile continues := by
      rcases List.mem_cons.1 h with heq | hrest
      · exact .inl (.inl heq)
      · rw [← List.takeWhile_append_dropWhile (p := continues) (l := rest)] at hrest
        rcases List.mem_append.1 hrest with htake | hdrop
        · exact .inl (.inr (List.all_eq_true.1 List.all_takeWhile d htake))
        · exact .inr hdrop
    rcases hcases with hfirst | hdrop
    · exact ⟨first, List.mem_cons_self, tokenClass_of_startsNothing hd hname hfirst⟩
    · obtain ⟨token, htoken, hkind⟩ := ih hdrop
      exact ⟨token, List.mem_cons_of_mem _ htoken, hkind⟩

end CallChain
