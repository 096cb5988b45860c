import CallChain.Grammar.Parse

/-!
# Tokens in their text

Every token stands at its offset (`spells_of_mem_tokens`), and the words and blanks of a token list
are its tokens without and with the kinds that the grammar skips.
-/

namespace CallChain

/-! ### Offsets -/

/-- The text has `piece` in the place of a span. -/
def SpelledAt (source piece : String) (span : Span) : Prop :=
  ∃ before after, source = before ++ piece ++ after ∧
    span = ⟨before.utf8ByteSize, before.utf8ByteSize + piece.utf8ByteSize⟩

theorem exists_of_mem_tokensFrom {start : Nat} {chars : List Char} {token : Token}
    (h : token ∈ tokensFrom start chars) :
    ∃ before after, chars = before ++ token.text.toList ++ after ∧
      token.start = start + (String.ofList before).utf8ByteSize := by
  fun_induction tokensFrom start chars with
  | case1 => cases h
  | case2 start c rest continues first ih =>
    have hsplit : first.text.toList ++ rest.dropWhile continues = c :: rest := by
      simp [first]
    rcases List.mem_cons.1 h with rfl | htoken
    · exact ⟨[], rest.dropWhile continues, by rw [List.nil_append, hsplit], by simp [first]⟩
    · obtain ⟨before, after, heq, hstart⟩ := ih htoken
      refine ⟨first.text.toList ++ before, after, ?_, ?_⟩
      · rw [List.append_assoc, List.append_assoc, ← List.append_assoc before, ← heq, hsplit]
      · rw [hstart, String.ofList_append, String.utf8ByteSize_append, String.ofList_toList]
        show first.start + first.text.utf8ByteSize + _ = _
        show start + first.text.utf8ByteSize + _ = _
        omega

/-- Every token stands at its offset. -/
theorem spells_of_mem_tokens {source : String} {token : Token} (h : token ∈ tokens source) :
    SpelledAt source token.text token.span := by
  obtain ⟨before, after, heq, hstart⟩ := exists_of_mem_tokensFrom h
  refine ⟨String.ofList before, String.ofList after, ?_, ?_⟩
  · rw [← String.ofList_toList (s := source), heq, String.ofList_append, String.ofList_append,
      String.ofList_toList]
  · rw [Token.span, hstart, Nat.zero_add]

/-- Every token has a text. -/
theorem utf8ByteSize_pos_of_mem_tokensFrom {start : Nat} {chars : List Char} {token : Token}
    (h : token ∈ tokensFrom start chars) : 0 < token.text.utf8ByteSize := by
  fun_induction tokensFrom start chars with
  | case1 => cases h
  | case2 start c rest continues first ih =>
    rcases List.mem_cons.1 h with rfl | htoken
    · have := c.utf8Size_pos
      simp [first]
      omega
    · exact ih htoken

/-- Tokens stand one behind the other. -/
theorem pairwise_start_tokensFrom (start : Nat) (chars : List Char) :
    (tokensFrom start chars).Pairwise (·.start < ·.start) := by
  fun_induction tokensFrom start chars with
  | case1 => exact .nil
  | case2 start c rest continues first ih =>
    refine List.pairwise_cons.2 ⟨fun token htoken => ?_, ih⟩
    obtain ⟨before, -, -, hbehind⟩ := exists_of_mem_tokensFrom htoken
    have hfirst : first ∈ tokensFrom start (c :: rest) := by
      rw [tokensFrom]
      exact List.mem_cons_self
    have hpos := utf8ByteSize_pos_of_mem_tokensFrom hfirst
    have hstop : first.span.stop = first.start + first.text.utf8ByteSize := rfl
    have hstart : first.start = start := rfl
    omega

theorem start_lt_of_mem_tokens {source : String} {token : Token} (h : token ∈ tokens source) :
    token.start < source.utf8ByteSize := by
  obtain ⟨before, after, heq, hspan⟩ := spells_of_mem_tokens h
  have hpos := utf8ByteSize_pos_of_mem_tokensFrom h
  have hstart : token.start = before.utf8ByteSize := congrArg Span.start hspan
  rw [heq, String.utf8ByteSize_append, String.utf8ByteSize_append]
  omega

/-! ### Words -/

/-- The tokens that the grammar sees. -/
def visible (ts : List Token) : List Token := ts.filter (!·.kind.isTrivia)

theorem splitWords_spec (ts : List Token) :
    (splitWords ts).2.map (·.token) = visible ts ∧
      (∀ b ∈ (splitWords ts).1, b.kind.isTrivia = true) ∧
      ∀ word ∈ (splitWords ts).2, ∀ b ∈ word.blanks, b.kind.isTrivia = true := by
  induction ts with
  | nil => exact ⟨rfl, by simp [splitWords], by simp [splitWords]⟩
  | cons token ts ih =>
    obtain ⟨hwords, hfirst, hblanks⟩ := ih
    unfold splitWords
    by_cases htrivia : token.kind.isTrivia = true
    · simp only [htrivia, if_true]
      refine ⟨?_, List.forall_mem_cons.2 ⟨htrivia, hfirst⟩, hblanks⟩
      rw [hwords, visible, visible, List.filter_cons_of_neg (by simp [htrivia])]
    · simp only [htrivia]
      refine ⟨?_, by simp, List.forall_mem_cons.2 ⟨hfirst, hblanks⟩⟩
      rw [visible, List.filter_cons_of_pos (by simp [htrivia])]
      exact congrArg (token :: ·) hwords

end CallChain
