import CallChain.Proofs.Finite.Checked

/-!
# One smallest automaton for each language

The states of a minimal automaton are told apart by their words, so they can be found again in every
automaton with the same words (`exists_counterpart`). Hence no such automaton has fewer states, and
two minimal ones have the same states under other numbers. The numbers are those of a breadth-first
search, which meets the same states in the same order; so the automata are equal.

* `Minimal.size_le`: no automaton with the same words has fewer states.
* `minimize_eq_of_words_eq`: minimizing depends on the words alone.
* `minimize_canonical`: what minimizing does.
-/

namespace CallChain.Dfa

variable {d e : Dfa} {f : Nat → Nat} {p q r symbol : Nat} {u v w : List Nat}

/-! ### States of two automata -/

theorem words_eq_iff : e.words = d.words ↔ ∀ w, e.accepts w = d.accepts w := by
  constructor
  · intro h w
    rw [Bool.eq_iff_iff]
    exact Set.ext_iff.1 h w
  · intro h
    ext w
    show e.accepts w = true ↔ d.accepts w = true
    rw [h w]

/-- What is accepted from a state on is what is accepted behind a way to the state. -/
theorem mem_wordsFrom_iff_of_run (hu : d.run d.initial u = some q) :
    v ∈ d.wordsFrom q ↔ u ++ v ∈ d.words := by
  rw [words_eq, append_mem_wordsFrom, hu]
  constructor
  · intro hv
    exact ⟨q, rfl, hv⟩
  · rintro ⟨t, ht, hv⟩
    cases ht
    exact hv

/-- The way to a state from which a word is accepted leads in every automaton with the same words to
a state from which the same words are accepted. -/
theorem exists_counterpart (hwords : e.words = d.words) (hu : d.run d.initial u = some q)
    (hlive : ∃ v, v ∈ d.wordsFrom q) :
    ∃ r, e.run e.initial u = some r ∧ e.wordsFrom r = d.wordsFrom q := by
  obtain ⟨v, hv⟩ := hlive
  rw [mem_wordsFrom_iff_of_run hu, ← hwords, words_eq, append_mem_wordsFrom] at hv
  obtain ⟨r, hr, -⟩ := hv
  refine ⟨r, hr, ?_⟩
  ext v
  rw [mem_wordsFrom_iff_of_run hr, mem_wordsFrom_iff_of_run hu, hwords]

variable (d e) in
/-- A function that names for each state of an automaton a state of another with the same words. -/
structure Counterparts (f : Nat → Nat) : Prop where
  lt_size : ∀ q < d.size, f q < e.size
  wordsFrom_eq : ∀ q < d.size, e.wordsFrom (f q) = d.wordsFrom q

/-- The states of a minimal automaton have counterparts in every automaton with the same words. -/
theorem Minimal.exists_counterparts (hd : d.Minimal) (he : e.WellFormed)
    (hwords : e.words = d.words) (hlive : ∀ q < d.size, ∃ v, v ∈ d.wordsFrom q) :
    ∃ f, d.Counterparts e f := by
  have hall : ∀ q < d.size, ∃ r, r < e.size ∧ e.wordsFrom r = d.wordsFrom q := by
    intro q hq
    obtain ⟨u, hu⟩ := hd.reached q hq
    rw [← hd.initial_eq] at hu
    obtain ⟨r, hr, hsame⟩ := exists_counterpart hwords hu (hlive q hq)
    exact ⟨r, he.run_lt he.initial_lt hr, hsame⟩
  choose! f hf using hall
  exact ⟨f, fun q hq => (hf q hq).1, fun q hq => (hf q hq).2⟩

/-- The states of a minimal automaton have counterparts of their own. -/
theorem Counterparts.inj (hf : d.Counterparts e f) (hd : d.Minimal) (hp : p < d.size)
    (hq : q < d.size) (h : f p = f q) : p = q := by
  apply hd.distinct p hp q hq
  rw [← hf.wordsFrom_eq p hp, ← hf.wordsFrom_eq q hq, h]

/-- No automaton with the same words has fewer states. -/
theorem Minimal.size_le (hd : d.Minimal) (he : e.WellFormed) (hwords : e.words = d.words) :
    d.size ≤ e.size := by
  rcases hd.live with hlive | hsize
  · obtain ⟨f, hf⟩ := hd.exists_counterparts he hwords hlive
    have hinj : Set.InjOn f (Finset.range d.size) := by
      intro p hp q hq heq
      rw [Finset.coe_range, Set.mem_Iio] at hp hq
      exact hf.inj hd hp hq heq
    have hmaps : ∀ q ∈ Finset.range d.size, f q ∈ Finset.range e.size := by
      intro q hq
      exact Finset.mem_range.2 (hf.lt_size q (Finset.mem_range.1 hq))
    have hcard := Finset.card_le_card_of_injOn f hmaps hinj
    rwa [Finset.card_range, Finset.card_range] at hcard
  · rw [hsize]
    exact Nat.lt_of_le_of_lt (Nat.zero_le _) he.initial_lt

section Counterparts

variable (hf : d.Counterparts e f)

include hf

theorem Counterparts.isAccepting_eq (hq : q < d.size) :
    e.isAccepting (f q) = d.isAccepting q := by
  rw [Bool.eq_iff_iff, ← nil_mem_wordsFrom, ← nil_mem_wordsFrom, hf.wordsFrom_eq q hq]

/-- The counterpart in a minimal automaton is settled by the words. -/
theorem Counterparts.eq_of_wordsFrom_eq (he : e.Minimal) (hq : q < d.size) (hr : r < e.size)
    (h : d.wordsFrom q = e.wordsFrom r) : f q = r := by
  apply he.distinct (f q) (hf.lt_size q hq) r hr
  rw [hf.wordsFrom_eq q hq, h]

theorem Counterparts.initial_eq (he : e.Minimal) (hd : d.WellFormed) (hwords : e.words = d.words) :
    f d.initial = e.initial :=
  hf.eq_of_wordsFrom_eq he hd.initial_lt he.initial_lt hwords.symm

/-- A symbol leads from a counterpart to the counterpart of the state that it leads to. -/
theorem Counterparts.next_eq (he : e.Minimal) (hd : d.WellFormed)
    (hlive : ∀ q < d.size, ∃ v, v ∈ d.wordsFrom q)
    (hlive' : ∀ r < e.size, ∃ v, v ∈ e.wordsFrom r) (hq : q < d.size) :
    e.next (f q) symbol = (d.next q symbol).map f := by
  have hsame : d.wordsFrom q = e.wordsFrom (f q) := (hf.wordsFrom_eq q hq).symm
  have hlt : ∀ t, d.next q symbol = some t → t < d.size := fun t ht => hd.next_lt ht
  have hlt' : ∀ r, e.next (f q) symbol = some r → r < e.size := fun r hr => he.next_lt hr
  have hrel := rel_next_of_wordsFrom_eq hsame (fun t ht => hlive t (hlt t ht))
    fun r hr => hlive' r (hlt' r hr)
  generalize d.next q symbol = t at hrel hlt ⊢
  generalize e.next (f q) symbol = r at hrel hlt' ⊢
  cases hrel with
  | none => rfl
  | some hsame =>
    rw [Option.map_some, hf.eq_of_wordsFrom_eq he (hlt _ rfl) (hlt' _ rfl) hsame]

end Counterparts

/-! ### Numbers of states -/

variable (d) in
/-- The states are numbered in the order in which a breadth-first search meets them. -/
def Numbered : Prop := ofSteps d.alphabet d.next d.isAccepting d.size d.initial = d

/-- A search from the initial state meets states. -/
theorem lt_size_of_mem_stepOrder (hd : d.WellFormed)
    (hq : q ∈ stepOrder d.alphabet d.next d.size d.initial) : q < d.size := by
  rcases eq_start_or_step (bounded_next hd) hq with rfl | ⟨_, _, _, -, hstep⟩
  · exact hd.initial_lt
  · exact hd.next_lt hstep

/-- The automaton of a step function is numbered as its elements are met. -/
theorem numbered_ofSteps {σ : Type} [BEq σ] [LawfulBEq σ] {alphabet bound : Nat}
    {step : σ → Nat → Option σ} {accepting : σ → Bool} {start : σ}
    (h : Bounded alphabet step bound start) :
    (ofSteps alphabet step accepting bound start).Numbered := by
  have hnext := bounded_next (wellFormed_ofSteps accepting h)
  have hinitial : (ofSteps alphabet step accepting bound start).initial =
      (stepOrder alphabet step bound start).idxOf start := idxOf_start.symm
  unfold Numbered
  rw [hinitial] at hnext ⊢
  -- the states stand for the elements by their numbers
  apply ofSteps_map (f := (stepOrder alphabet step bound start).idxOf) h hnext
  · intro s hs s' _ heq
    exact (List.idxOf_inj hs).1 heq
  · intro s hs symbol hsymbol
    exact (next_ofSteps accepting hs).trans (if_pos hsymbol)
  · intro s hs
    exact isAccepting_ofSteps accepting hs

theorem numbered_minimize (hd : d.WellFormed) : d.minimize.Numbered :=
  numbered_ofSteps (pruned_restrict hd).bounded_nextBlock

/-! ### Equal automata -/

/-- Minimal automata with the same words are equal, if they are numbered in the same way. -/
theorem Minimal.eq_of_words_eq (hd : d.Minimal) (he : e.Minimal) (hnumbered : d.Numbered)
    (hnumbered' : e.Numbered) (halphabet : e.alphabet = d.alphabet) (hwords : e.words = d.words)
    (hw : w ∈ d.words) : e = d := by
  have hlive := hd.live_of_mem hw
  have hlive' := he.live_of_mem (hwords ▸ hw)
  obtain ⟨f, hf⟩ := hd.exists_counterparts he.toWellFormed hwords hlive
  have hinitial := hf.initial_eq he hd.toWellFormed hwords
  have hbounded := bounded_next he.toWellFormed
  rw [halphabet, ← hinitial] at hbounded
  have hlt {q : Nat} (hq : q ∈ stepOrder d.alphabet d.next d.size d.initial) : q < d.size :=
    lt_size_of_mem_stepOrder hd.toWellFormed hq
  -- step by step the counterparts are met in the same order
  calc e = ofSteps d.alphabet e.next e.isAccepting e.size (f d.initial) := by
        rw [hinitial, ← halphabet]
        exact hnumbered'.symm
    _ = ofSteps d.alphabet d.next d.isAccepting d.size d.initial := by
        apply ofSteps_map (bounded_next hd.toWellFormed) hbounded
        · intro p hp q hq heq
          exact hf.inj hd (hlt hp) (hlt hq) heq
        · intro q hq symbol _
          exact hf.next_eq he hd.toWellFormed hlive hlive' (hlt hq)
        · intro q hq
          exact hf.isAccepting_eq (hlt hq)
    _ = d := hnumbered

/-- Minimizing depends on the words alone. -/
theorem minimize_eq_of_words_eq (hd : d.WellFormed) (he : e.WellFormed)
    (halphabet : e.alphabet = d.alphabet) (hwords : e.words = d.words) (hw : w ∈ d.words) :
    e.minimize = d.minimize := by
  rw [← words_minimize hd] at hw
  refine (minimal_minimize hd).eq_of_words_eq (minimal_minimize he) (numbered_minimize hd)
    (numbered_minimize he) halphabet ?_ hw
  rw [words_minimize hd, words_minimize he, hwords]

/-- Minimizing keeps the words and leaves no more states than any automaton with these words has.
The rounds of dividing the live states end: each but the last counts further blocks, and the last
counts as many as the one before. Where a word is accepted at all, the result is the same for all
automata with the same words, and is its own result. -/
theorem minimize_canonical (hd : d.WellFormed) :
    (∃ rounds ≤ d.size,
      let round := (d.restrict d.live).divide d.live
      (∀ n < rounds, (round^[n] d.acceptance).count < (round^[n + 1] d.acceptance).count) ∧
      (round^[rounds + 1] d.acceptance).count = (round^[rounds] d.acceptance).count ∧
      (d.restrict d.live).blocks d.live = round^[rounds + 1] d.acceptance ∧
      d.foundLive = .ok d.live ∧
      d.refined d.live (d.size + 1) d.acceptance = .ok (round^[rounds + 1] d.acceptance)) ∧
    d.minimized = .ok d.minimize ∧
    (∀ w, d.minimize.accepts w = d.accepts w) ∧
    (∀ e : Dfa, e.WellFormed → e.alphabet = d.alphabet → (∀ w, e.accepts w = d.accepts w) →
      d.minimize.size ≤ e.size ∧ ((∃ w, d.accepts w = true) → e.minimize = d.minimize)) ∧
    ((∃ w, d.accepts w = true) → d.minimize.minimize = d.minimize) := by
  have hminimal := minimal_minimize hd
  refine ⟨?_, minimized_eq hd, words_eq_iff.1 (words_minimize hd), ?_, ?_⟩
  · obtain ⟨rounds, hle, hgrowing, hlast, hblocks⟩ :=
      exists_rounds_blocks (d.restrict d.live) d.live
    rw [acceptance_restrict] at hgrowing hlast hblocks
    rw [size_restrict] at hle
    refine ⟨rounds, hle, hgrowing, hlast, hblocks, foundLive_eq hd, ?_⟩
    rw [refined_acceptance_eq hd, hblocks]
  · intro e he halphabet hsame
    have hwords := words_eq_iff.2 hsame
    refine ⟨hminimal.size_le he ?_, ?_⟩
    · rw [words_minimize hd]
      exact hwords
    · rintro ⟨w, hw⟩
      exact minimize_eq_of_words_eq hd he halphabet hwords hw
  · rintro ⟨w, hw⟩
    exact minimize_eq_of_words_eq hd hminimal.toWellFormed alphabet_minimize (words_minimize hd) hw

/-- The words `[0, 2]` and `[1, 2]`, with a state behind each first symbol. -/
def twoRoutes : Dfa where
  alphabet := 3
  rows := #[⟨false, [some 1, some 2, none]⟩, ⟨false, [none, none, some 3]⟩,
    ⟨false, [none, none, some 3]⟩, ⟨true, [none, none, none]⟩]
  initial := 0

theorem minimize_canonical_twoRoutes : twoRoutes.WellFormed ∧
    ∃ m : Dfa, twoRoutes.minimize = m ∧
      m.rows = #[⟨false, [some 1, some 1, none]⟩, ⟨false, [none, none, some 2]⟩,
        ⟨true, [none, none, none]⟩] ∧
      ∀ e : Dfa, e.WellFormed → e.alphabet = 3 →
        (∀ w, e.accepts w = twoRoutes.accepts w) → 3 ≤ e.size ∧ e.minimize = m := by
  have hwf : twoRoutes.WellFormed := isWellFormed_iff.1 (by decide +kernel)
  have hrows : twoRoutes.minimize.rows = #[⟨false, [some 1, some 1, none]⟩,
      ⟨false, [none, none, some 2]⟩, ⟨true, [none, none, none]⟩] := by decide +kernel
  refine ⟨hwf, _, rfl, hrows, fun e he halphabet hsame => ?_⟩
  obtain ⟨-, -, -, hall, -⟩ := minimize_canonical hwf
  obtain ⟨hsize, heq⟩ := hall e he halphabet hsame
  rw [size, hrows] at hsize
  exact ⟨hsize, heq ⟨[0, 2], by decide⟩⟩

end CallChain.Dfa
