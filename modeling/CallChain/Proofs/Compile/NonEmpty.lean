import CallChain.Proofs.Compile.Closing

/-!
# Boolean operations on automata are exact

An intersection goes on only where both automata do, so it accepts what both accept, and it has no
state that no word leads to. A complement must first be told where every symbol leads: what had no
transition goes to a further state. Together they take the empty word away from an operand: the
automaton of the operand is intersected with the complement of the empty word.

* `exists_toFragment_nonEmpty`: the fragment of an operand that must not be empty.
* `intersect_complement_exact`: the three operations.
-/

namespace CallChain

namespace Registry

variable {r : Registry} {t : ActionTable} {depth : Nat} {context : Option String}
  {path : List String} {operand : Regex} {n inner : Nfa} {part : Fragment} {p p' : Progress}

/-- Where an operand was made into a fragment of its own, a fragment of its nonempty words follows,
and nothing else is compiled or logged for it. -/
theorem exists_toFragment_nonEmpty (hmemo : Memo r t p.compiled)
    (hn : n.alphabet = (Alphabet.ofTable t).size)
    (hoperand : operand.toFragment (Alphabet.ofTable t) context
      (r.lookup (r.compileBelow (Alphabet.ofTable t) depth) context path)
      (.ofAlphabet (Alphabet.ofTable t).size) p = (.ok (inner, part), p')) :
    ∃ made, (Regex.nonEmpty operand).toFragment (Alphabet.ofTable t) context
        (r.lookup (r.compileBelow (Alphabet.ofTable t) depth) context path) n p =
        (.ok made, p') ∧
      ∀ w, w ∈ made.1.words made.2 ↔ w ∈ inner.words part ∧ w ≠ [] := by
  obtain ⟨step, hagrees⟩ := exists_agrees (r := r) (t := t) depth context path
  have hfollows := follows_toFragment hagrees operand (.ofAlphabet _) p rfl hmemo
  obtain ⟨-, hmakes⟩ := CompileM.Outcome.of_eq_ok hfollows hoperand
  obtain ⟨d, hd, hwf, halphabet, hwords⟩ :=
    Nfa.exists_nonEmptyWords hmakes.wellFormed hmakes.entry_lt
  have hsame : d.alphabet = n.alphabet := by
    rw [halphabet, hmakes.changes.alphabet_eq, hn]
    rfl
  obtain ⟨made, hmade, hcopy⟩ := Nfa.exists_embed hwf hsame
  refine ⟨made, ?_, ?_⟩
  · rw [Regex.toFragment, CompileM.bind_of_eq_ok hoperand]
    dsimp only
    rw [hd]
    show CompileM.checked (n.embed d) p' = _
    rw [hmade]
    rfl
  · intro w
    rw [hcopy.holds.words_eq, hwords]

end Registry

/-- An intersection of automata over one alphabet accepts what both accept, and every state of it is
reached; making a complement succeeds, and it accepts what the automaton rejects. So the nonempty
words of a fragment have an automaton, and so do those of an operand that must not be empty,
whatever they are added to. -/
theorem intersect_complement_exact :
    (∀ d e : Dfa, d.WellFormed → e.WellFormed → d.alphabet = e.alphabet →
      (∃ m, d.intersect e = .ok m ∧ m.alphabet = d.alphabet ∧
        (∀ w, m.accepts w = (d.accepts w && e.accepts w)) ∧
        ∀ q < m.size, ∃ w, m.run m.initial w = some q) ∧
      d.complemented = .ok d.complement ∧
      ∀ w, (∀ s ∈ w, s < d.alphabet) → d.complement.accepts w = !d.accepts w) ∧
    (∀ (n : Nfa) (f : Fragment), n.WellFormed → f.entry < n.size →
      ∃ m, n.nonEmptyWords f = .ok m ∧
        ∀ w, m.accepts w = true ↔ n.Path f.exit f.entry w ∧ w ≠ []) ∧
    ∀ (r : Registry) (t : ActionTable) (depth : Nat) (context : Option String)
      (path : List String) (operand : Regex) (n inner : Nfa) (part : Fragment) (p p' : Progress),
      Memo r t p.compiled → n.alphabet = (Alphabet.ofTable t).size →
      operand.toFragment (Alphabet.ofTable t) context
        (r.lookup (r.compileBelow (Alphabet.ofTable t) depth) context path)
        (.ofAlphabet (Alphabet.ofTable t).size) p = (.ok (inner, part), p') →
      ∃ made, (Regex.nonEmpty operand).toFragment (Alphabet.ofTable t) context
          (r.lookup (r.compileBelow (Alphabet.ofTable t) depth) context path) n p =
          (.ok made, p') ∧
        ∀ w, made.1.Path made.2.exit made.2.entry w ↔
          inner.Path part.exit part.entry w ∧ w ≠ [] := by
  refine ⟨?_, ?_, ?_⟩
  · intro d e hd he halphabet
    obtain ⟨m, hm⟩ := Dfa.exists_intersect hd he halphabet
    refine ⟨⟨m, hm, Dfa.alphabet_intersect hd he hm, Dfa.accepts_intersect hd he hm, ?_⟩,
      Dfa.complemented_eq hd, ?_⟩
    · intro q hq
      exact Dfa.exists_run_intersect hd he hm hq
    · intro w hw
      exact Dfa.accepts_complement hd hw
  · intro n f hn hentry
    obtain ⟨m, hm, -, -, hwords⟩ := Nfa.exists_nonEmptyWords hn hentry
    exact ⟨m, hm, hwords⟩
  · intro r t depth context path operand n inner part p p' hmemo hn hoperand
    exact Registry.exists_toFragment_nonEmpty hmemo hn hoperand

/-- The words of `0` alone that have an even number of letters, with no transition on `1`. -/
def evenZeros : Dfa := ⟨2, #[⟨true, [some 1, none]⟩, ⟨false, [some 0, none]⟩], 0⟩

/-- The words that end with `0`, or are empty. -/
def endsWithZero : Dfa := ⟨2, #[⟨true, [some 0, some 1]⟩, ⟨false, [some 0, some 1]⟩], 0⟩

/-- The words of `0` alone, with a node that nothing leads to. -/
def zeros : Nfa := ⟨2, #[⟨[(⟨0, 1⟩, 0)], []⟩, ⟨[(⟨0, 2⟩, 0)], [1]⟩]⟩

/-- The operand `add*`. -/
def anySums : Regex := .quantified (.literal ⟨"add", .unplaced⟩) .star

/-- Makes a fragment where nothing has been compiled yet. -/
def freshFragment (expr : Regex) : Except Abort (Nfa × Fragment) × Progress :=
  expr.toFragment (.ofTable sumActions) none
    (sums.lookup (sums.compileBelow (.ofTable sumActions) 0) none [])
    (.ofAlphabet (Alphabet.ofTable sumActions).size) .start

theorem intersect_complement_exact_evenZeros :
    (∃ m, evenZeros.intersect endsWithZero = .ok m ∧
      (∀ w, m.accepts w = (evenZeros.accepts w && endsWithZero.accepts w)) ∧
      ∀ q < m.size, ∃ w, m.run m.initial w = some q) ∧
    evenZeros.complemented = .ok evenZeros.complement ∧
    evenZeros.complement.accepts [0, 1, 0] = !evenZeros.accepts [0, 1, 0] ∧
    (∃ m, zeros.nonEmptyWords ⟨0, 0⟩ = .ok m ∧
      ∀ w, m.accepts w = true ↔ zeros.Path 0 0 w ∧ w ≠ []) ∧
    ∃ inner part made p', freshFragment anySums = (.ok (inner, part), p') ∧
      freshFragment (.nonEmpty anySums) = (.ok made, p') ∧
      ∀ w, made.1.Path made.2.exit made.2.entry w ↔
        inner.Path part.exit part.entry w ∧ w ≠ [] := by
  have heven : evenZeros.WellFormed := Dfa.isWellFormed_iff.1 (by decide +kernel)
  have hends : endsWithZero.WellFormed := Dfa.isWellFormed_iff.1 (by decide +kernel)
  have hzeros : zeros.WellFormed := Nfa.wellFormed_iff.2 (by decide +kernel)
  have hruns : (freshFragment anySums).1.toOption.isSome = true := by decide +kernel
  obtain ⟨hproduct, hnonEmpty, htranslated⟩ := intersect_complement_exact
  obtain ⟨⟨m, hm, -, hwords, hreached⟩, hcomplemented, hcomplement⟩ := hproduct _ _ heven hends rfl
  refine ⟨⟨m, hm, hwords, hreached⟩, hcomplemented, hcomplement _ (by decide),
    hnonEmpty _ _ hzeros (by decide), ?_⟩
  rcases hoperand : freshFragment anySums with ⟨_ | ⟨inner, part⟩, p'⟩
  · rw [hoperand] at hruns
    cases hruns
  · obtain ⟨made, hmade, hiff⟩ := htranslated sums sumActions 0 none [] anySums
      (.ofAlphabet (Alphabet.ofTable sumActions).size) inner part .start p' .nil rfl hoperand
    exact ⟨inner, part, made, p', rfl, hmade, hiff⟩

end CallChain
