import CallChain.Proofs.Finite.Checked

/-!
# Closing a language under prefixes

An automaton that accepts everywhere accepts what it can run (`mem_words_acceptAll`). In a minimal
automaton every run is on the way to a word, so minimizing first makes these the prefixes of the
words. There is one exception: where no word is accepted the initial state is kept nevertheless, and
with it the transitions that lead from it back to itself, so words that only loop there begin to be
accepted.

* `mem_words_acceptAll`: accepting everywhere.
* `acceptAll_minimize`: accepting everywhere, after minimizing.
* `acceptAll_deadLoop`: the exception occurs.
-/

namespace CallChain.Dfa

variable {d : Dfa} {q t s : Nat} {w : List Nat}

/-! ### Accepting everywhere -/

@[simp] theorem targets_acceptAll : d.acceptAll.targets q = d.targets q := by
  unfold targets acceptAll
  rw [Array.getElem?_map]
  cases d.rows[q]? <;> rfl

@[simp] theorem size_acceptAll : d.acceptAll.size = d.size := by
  simp [acceptAll, size]

@[simp] theorem next_acceptAll : d.acceptAll.next q s = d.next q s := by
  rw [next, targets_acceptAll]
  rfl

@[simp] theorem run_acceptAll : d.acceptAll.run q w = d.run q w := by
  induction w generalizing q with
  | nil => rfl
  | cons s w ih => simp only [run, next_acceptAll, ih]

theorem isAccepting_acceptAll (hq : q < d.size) : d.acceptAll.isAccepting q = true := by
  unfold isAccepting acceptAll
  rw [Array.getElem?_map, Array.getElem?_eq_getElem hq]
  rfl

theorem WellFormed.acceptAll (hd : d.WellFormed) : d.acceptAll.WellFormed where
  initial_lt := by
    rw [size_acceptAll]
    exact hd.initial_lt
  length_targets q hq := by
    rw [targets_acceptAll]
    exact hd.length_targets q (size_acceptAll ▸ hq)
  next_lt := by
    intro q s q' hq'
    rw [next_acceptAll] at hq'
    rw [size_acceptAll]
    exact hd.next_lt hq'

/-- What can be run is accepted. -/
theorem mem_words_acceptAll (hd : d.WellFormed) :
    w ∈ d.acceptAll.words ↔ ∃ q, d.run d.initial w = some q := by
  rw [words_eq, mem_wordsFrom]
  simp only [run_acceptAll]
  constructor
  · rintro ⟨q, hq, -⟩
    exact ⟨q, hq⟩
  · rintro ⟨q, hq⟩
    exact ⟨q, hq, isAccepting_acceptAll (hd.run_lt hd.initial_lt hq)⟩

/-- Where all states are live, what can be run is on the way to a word. -/
theorem exists_run_iff_of_live (hd : d.WellFormed)
    (hlive : ∀ q < d.size, ∃ v, v ∈ d.wordsFrom q) :
    (∃ q, d.run d.initial w = some q) ↔ ∃ v, w ++ v ∈ d.words := by
  simp only [words_eq, append_mem_wordsFrom]
  constructor
  · rintro ⟨q, hq⟩
    obtain ⟨v, hv⟩ := hlive q (hd.run_lt hd.initial_lt hq)
    exact ⟨v, q, hq, hv⟩
  · rintro ⟨v, q, hq, -⟩
    exact ⟨q, hq⟩

/-! ### Minimizing first -/

theorem words_eq_zero_iff : d.words = 0 ↔ ∀ w, d.accepts w = false := by
  simp only [← Bool.not_eq_true]
  exact Set.eq_empty_iff_forall_notMem

/-- Where no word is accepted one state is left, and transitions are loops. -/
theorem eq_initial_of_next_minimize (hd : d.WellFormed) (hempty : d.words = 0)
    (h : d.minimize.next q s = some t) : q = d.minimize.initial ∧ t = d.minimize.initial := by
  have hminimal := minimal_minimize hd
  have hsize : d.minimize.size = 1 := by
    rcases hminimal.live with hlive | hsize
    · obtain ⟨w, hw⟩ := hlive _ hminimal.initial_lt
      rw [← words_eq, words_minimize hd, hempty] at hw
      exact hw.elim
    · exact hsize
  have hinitial := hminimal.initial_lt
  have hq := lt_size_of_next h
  have ht := hminimal.next_lt h
  omega

/-- Where no word is accepted, what can be run loops at the initial state. -/
theorem exists_run_minimize_iff_of_empty (hd : d.WellFormed) (hempty : d.words = 0) :
    (∃ q, d.minimize.run d.minimize.initial w = some q) ↔
      ∀ s ∈ w, d.next d.initial s = some d.initial := by
  induction w with
  | nil => simp [run]
  | cons s w ih =>
    rw [List.forall_mem_cons, ← next_minimize_initial_iff hd hempty, ← ih, run]
    cases ht : d.minimize.next d.minimize.initial s with
    | none => simp
    | some t =>
      rw [(eq_initial_of_next_minimize hd hempty ht).2, Option.bind_some]
      exact (and_iff_right rfl).symm

theorem exists_accepts_of_ne (hne : d.words ≠ 0) : ∃ u, d.accepts u = true := by
  by_contra hall
  push Not at hall
  apply hne
  apply words_eq_zero_iff.2
  intro w
  exact Bool.eq_false_of_not_eq_true (hall w)

/-- Where some word is accepted every state that is left is on the way to a word. -/
theorem live_minimize_of_ne (hd : d.WellFormed) (hne : d.words ≠ 0) :
    ∀ q < d.minimize.size, ∃ v, v ∈ d.minimize.wordsFrom q := by
  obtain ⟨u, hu⟩ := exists_accepts_of_ne hne
  have hword : u ∈ d.minimize.words := by
    rw [words_minimize hd]
    exact hu
  exact (minimal_minimize hd).live_of_mem hword

/-- What can be run after minimizing: the empty word, what begins a word, and loops where no word is
accepted. -/
theorem exists_run_minimize_iff (hd : d.WellFormed) :
    (∃ q, d.minimize.run d.minimize.initial w = some q) ↔
      w = [] ∨ (∃ v, d.accepts (w ++ v) = true) ∨
        (∀ v, d.accepts v = false) ∧ ∀ s ∈ w, d.next d.initial s = some d.initial := by
  by_cases hempty : d.words = 0
  · have hnone := words_eq_zero_iff.1 hempty
    rw [exists_run_minimize_iff_of_empty hd hempty]
    constructor
    · intro hloops
      exact .inr (.inr ⟨hnone, hloops⟩)
    · rintro (rfl | ⟨v, hv⟩ | ⟨-, hloops⟩)
      · simp
      · rw [hnone] at hv
        cases hv
      · exact hloops
  · obtain ⟨u, hu⟩ := exists_accepts_of_ne hempty
    rw [exists_run_iff_of_live (minimal_minimize hd).toWellFormed (live_minimize_of_ne hd hempty),
      words_minimize hd]
    constructor
    · intro hv
      exact .inr (.inl hv)
    · rintro (rfl | hv | ⟨hnone, -⟩)
      · exact ⟨u, hu⟩
      · exact hv
      · rw [hnone] at hu
        cases hu

/-- Minimizing succeeds, and accepting everywhere afterwards closes the words under prefixes: what
is accepted is the empty word and what begins a word, and no transition leads to a state from which
no word was accepted before. The exception are loops at the initial state of an automaton that
accepts nothing. -/
theorem acceptAll_minimize (hd : d.WellFormed) :
    d.minimized = .ok d.minimize ∧
    (∀ w, d.minimize.acceptAll.accepts w = true ↔
      w = [] ∨ (∃ v, d.accepts (w ++ v) = true) ∨
        (∀ v, d.accepts v = false) ∧ ∀ s ∈ w, d.next d.initial s = some d.initial) ∧
    ∀ q s t, d.minimize.next q s = some t →
      (∃ v, v ∈ d.minimize.wordsFrom t) ∨
        (∀ v, d.accepts v = false) ∧ q = d.minimize.initial ∧ t = d.minimize.initial ∧
          d.next d.initial s = some d.initial := by
  have hwf : d.minimize.WellFormed := (minimal_minimize hd).toWellFormed
  refine ⟨minimized_eq hd, ?_, ?_⟩
  · intro w
    rw [← exists_run_minimize_iff hd]
    exact mem_words_acceptAll hwf
  · intro q s t h
    by_cases hempty : d.words = 0
    · -- the only state that is left is the initial one
      obtain ⟨hq, ht⟩ := eq_initial_of_next_minimize hd hempty h
      rw [hq, ht] at h
      have hloop := (next_minimize_initial_iff hd hempty).1 h
      exact .inr ⟨words_eq_zero_iff.1 hempty, hq, ht, hloop⟩
    · exact .inl (live_minimize_of_ne hd hempty t (hwf.next_lt h))

/-- The word `[0, 1]`; the symbol 1 leads from the initial state to a dead one with a loop. -/
def blindAlley : Dfa where
  alphabet := 2
  rows := #[⟨false, [some 1, some 3]⟩, ⟨false, [none, some 2]⟩, ⟨true, [none, none]⟩,
    ⟨false, [some 3, none]⟩]
  initial := 0

theorem acceptAll_minimize_blindAlley : blindAlley.WellFormed ∧
    ∀ w, blindAlley.minimize.acceptAll.accepts w = true ↔
      w = [] ∨ ∃ v, blindAlley.accepts (w ++ v) = true := by
  have hwf : blindAlley.WellFormed := isWellFormed_iff.1 (by decide +kernel)
  have hword : blindAlley.accepts [0, 1] = true := by decide
  refine ⟨hwf, fun w => ((acceptAll_minimize hwf).2.1 w).trans ?_⟩
  refine or_congr_right (or_iff_left ?_)
  rintro ⟨hnone, -⟩
  rw [hnone] at hword
  cases hword

/-- One state, which rejects and leads back to itself. -/
def deadLoop : Dfa := ⟨1, #[⟨false, [some 0]⟩], 0⟩

/-- A loop at a dead initial state survives, and begins to be accepted. -/
theorem acceptAll_deadLoop : deadLoop.WellFormed ∧
    (¬ ∀ w, deadLoop.minimize.acceptAll.accepts w = true ↔
      w = [] ∨ ∃ v, deadLoop.accepts (w ++ v) = true) ∧
    deadLoop.minimize.next 0 0 = some 0 ∧ ∀ v, v ∉ deadLoop.minimize.wordsFrom 0 := by
  have hwf : deadLoop.WellFormed := isWellFormed_iff.1 (by decide +kernel)
  have hdead (w : List Nat) : deadLoop.accepts w = false := by
    have hrejects (q : Nat) : deadLoop.isAccepting q = false := by
      cases q <;> rfl
    rw [accepts]
    cases deadLoop.run deadLoop.initial w with
    | none => rfl
    | some q => exact hrejects q
  have hempty : deadLoop.words = 0 := words_eq_zero_iff.2 hdead
  refine ⟨hwf, fun hclosed => ?_, by decide +kernel, fun v hv => ?_⟩
  · rcases (hclosed [0]).1 (by decide +kernel) with hnil | ⟨v, hv⟩
    · cases hnil
    · rw [hdead] at hv
      cases hv
  · have hword : v ∈ deadLoop.minimize.words := hv
    rw [words_minimize hwf, hempty] at hword
    exact hword

end CallChain.Dfa
