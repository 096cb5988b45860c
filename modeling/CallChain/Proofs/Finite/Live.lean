import CallChain.Finite.Minimize
import CallChain.Proofs.Finite.Steps

/-!
# Live states

`Dfa.live` marks the states that are reached and from which a word is accepted, and the initial
state in any case. Without the transitions to all others an automaton has the same words, and from
each live state one of them is accepted, unless the automaton accepts nothing: then only the initial
state is live.

* `mem_productive`: the search against the arrows finds the states from which a word is accepted.
* `isLive_live`: what is marked.
* `words_restrict`: no word is lost.
* `pruned_restrict`: what is left.
-/

namespace CallChain.Dfa

variable {d : Dfa} {live : Array Bool} {state other symbol : Nat} {u v w : List Nat}

/-! ### Productive states -/

theorem mem_arrows : (state, other) ∈ d.arrows ↔ ∃ symbol, d.next state symbol = some other := by
  simp only [arrows, List.mem_flatMap, List.mem_map, Prod.mk.injEq, mem_successors]
  constructor
  · rintro ⟨_, -, _, ⟨symbol, h⟩, rfl, rfl⟩
    exact ⟨symbol, h⟩
  · rintro ⟨symbol, h⟩
    exact ⟨state, List.mem_range.2 (lt_size_of_next h), other, ⟨symbol, h⟩, rfl, rfl⟩

theorem mem_sources {arrows : List (Nat × Nat)} :
    state ∈ sources arrows other ↔ (state, other) ∈ arrows := by
  simp only [sources, List.mem_filterMap, Option.ite_none_right_eq_some, Option.some.injEq,
    Prod.exists]
  constructor
  · rintro ⟨s, t, hmem, rfl, rfl⟩
    exact hmem
  · intro h
    exact ⟨state, other, h, rfl, rfl⟩

/-- The states that the search finds are those from which a word is accepted. -/
theorem mem_productive : state ∈ d.productive ↔ ∃ w, w ∈ d.wordsFrom state := by
  have hconfined : Confined (sources d.arrows) (d.states.filter d.isAccepting) d.states := by
    refine ⟨fun q hq => (List.mem_filter.1 hq).1, ?_⟩
    intro q _ p hp
    obtain ⟨symbol, h⟩ := mem_arrows.1 (mem_sources.1 hp)
    exact List.mem_range.2 (lt_size_of_next h)
  have hlen : d.states.length ≤ d.size := by simp [states]
  rw [productive, mem_discover_iff hconfined hlen]
  constructor
  · -- each step of the search puts a symbol in front of a word
    intro h
    induction h with
    | seed hq => exact ⟨[], nil_mem_wordsFrom.2 (List.mem_filter.1 hq).2⟩
    | step _ hp ih =>
      obtain ⟨w, hw⟩ := ih
      obtain ⟨symbol, h⟩ := mem_arrows.1 (mem_sources.1 hp)
      exact ⟨symbol :: w, cons_mem_wordsFrom.2 ⟨_, h, hw⟩⟩
  · rintro ⟨w, hw⟩
    induction w generalizing state with
    | nil =>
      have hacc := nil_mem_wordsFrom.1 hw
      exact .seed (List.mem_filter.2 ⟨List.mem_range.2 (lt_size_of_isAccepting hacc), hacc⟩)
    | cons symbol w ih =>
      obtain ⟨t, ht, hw⟩ := cons_mem_wordsFrom.1 hw
      exact .step (ih hw) (mem_sources.2 (mem_arrows.2 ⟨symbol, ht⟩))

/-! ### Reached states -/

theorem bounded_next (hd : d.WellFormed) : Bounded d.alphabet d.next d.size d.initial := by
  refine ⟨d.states, List.mem_range.2 hd.initial_lt, by simp [states], ?_⟩
  intro q _ symbol _ t ht
  exact List.mem_range.2 (hd.next_lt ht)

theorem walk_next (hd : d.WellFormed) : walk d.alphabet d.next state w = d.run state w := by
  induction w generalizing state with
  | nil => rfl
  | cons symbol w ih =>
    rw [walk, run]
    cases ht : d.next state symbol with
    | none => simp
    | some t =>
      rw [if_pos (hd.symbol_lt ht)]
      exact ih

theorem mem_reachable (hd : d.WellFormed) :
    state ∈ d.reachable ↔ ∃ w, d.run d.initial w = some state := by
  rw [reachable, mem_stepOrder (bounded_next hd)]
  simp only [walk_next hd]

theorem lt_size_of_isLive (h : isLive d.live state = true) : state < d.size := by
  by_contra hlt
  have hnone : d.live[state]? = none := by
    apply Array.getElem?_eq_none
    simpa [Dfa.live, states] using hlt
  rw [isLive, Array.getD_eq_getD_getElem?, hnone] at h
  cases h

/-- What is marked as live. -/
theorem isLive_live (hd : d.WellFormed) : isLive d.live state = true ↔
    (∃ w, d.run d.initial w = some state) ∧
      ((∃ v, v ∈ d.wordsFrom state) ∨ state = d.initial) := by
  have hmarks (hlt : state < d.size) : isLive d.live state = true ↔
      (∃ w, d.run d.initial w = some state) ∧
        ((∃ v, v ∈ d.wordsFrom state) ∨ state = d.initial) := by
    rw [← mem_reachable hd, ← mem_productive]
    simp [isLive, Dfa.live, states, hlt]
  constructor
  · intro h
    exact (hmarks (lt_size_of_isLive h)).1 h
  · intro h
    obtain ⟨w, hw⟩ := h.1
    exact (hmarks (hd.run_lt hd.initial_lt hw)).2 h

/-! ### Restricted automata -/

@[simp] theorem size_restrict : (d.restrict live).size = d.size := by
  simp [restrict, size]

theorem targets_restrict :
    (d.restrict live).targets state = (d.targets state).map (·.filter (isLive live)) := by
  unfold targets restrict
  rw [Array.getElem?_map]
  cases d.rows[state]? <;> rfl

@[simp] theorem isAccepting_restrict :
    (d.restrict live).isAccepting state = d.isAccepting state := by
  unfold isAccepting restrict
  rw [Array.getElem?_map]
  cases d.rows[state]? <;> rfl

theorem next_restrict :
    (d.restrict live).next state symbol = (d.next state symbol).filter (isLive live) := by
  rw [next, targets_restrict, List.getElem?_map, next]
  cases (d.targets state)[symbol]? <;> rfl

theorem next_restrict_eq_some_iff : (d.restrict live).next state symbol = some other ↔
    d.next state symbol = some other ∧ isLive live other = true := by
  rw [next_restrict, Option.filter_eq_some_iff]

theorem WellFormed.restrict (hd : d.WellFormed) : (d.restrict live).WellFormed where
  initial_lt := by
    rw [size_restrict]
    exact hd.initial_lt
  length_targets q hq := by
    rw [targets_restrict, List.length_map]
    exact hd.length_targets q (size_restrict ▸ hq)
  next_lt := by
    intro q s q' hnext
    rw [size_restrict]
    exact hd.next_lt (next_restrict_eq_some_iff.1 hnext).1

theorem run_of_run_restrict (h : (d.restrict live).run state w = some other) :
    d.run state w = some other := by
  induction w generalizing state with
  | nil => exact h
  | cons symbol w ih =>
    obtain ⟨t, ht, hw⟩ := Option.bind_eq_some_iff.1 h
    rw [run, (next_restrict_eq_some_iff.1 ht).1]
    exact ih hw

/-- A run on the way to a word meets live states only. -/
theorem run_restrict (hd : d.WellFormed) (hu : d.run d.initial u = some state)
    (h : d.run state w = some other) (hlive : ∃ v, v ∈ d.wordsFrom other) :
    (d.restrict d.live).run state w = some other := by
  induction w generalizing state u with
  | nil => exact h
  | cons symbol w ih =>
    -- the next state is reached, and what is left leads it to the word
    obtain ⟨t, ht, hw⟩ := Option.bind_eq_some_iff.1 h
    have hreached : d.run d.initial (u ++ [symbol]) = some t := by
      rw [run_append, hu, Option.bind_some, run_singleton, ht]
    have htlive : isLive d.live t = true := by
      obtain ⟨v, hv⟩ := hlive
      exact (isLive_live hd).2 ⟨⟨_, hreached⟩, .inl ⟨w ++ v, append_mem_wordsFrom.2 ⟨_, hw, hv⟩⟩⟩
    rw [run, next_restrict_eq_some_iff.2 ⟨ht, htlive⟩]
    exact ih hreached hw

/-- From a state that is reached the same words are accepted. -/
theorem wordsFrom_restrict (hd : d.WellFormed) (hu : d.run d.initial u = some state) :
    (d.restrict d.live).wordsFrom state = d.wordsFrom state := by
  ext w
  simp only [mem_wordsFrom, isAccepting_restrict]
  constructor
  · rintro ⟨t, hw, hacc⟩
    exact ⟨t, run_of_run_restrict hw, hacc⟩
  · rintro ⟨t, hw, hacc⟩
    exact ⟨t, run_restrict hd hu hw ⟨[], nil_mem_wordsFrom.2 hacc⟩, hacc⟩

/-- No word is lost. -/
theorem words_restrict (hd : d.WellFormed) : (d.restrict d.live).words = d.words := by
  have hnil : d.run d.initial [] = some d.initial := rfl
  exact wordsFrom_restrict hd hnil

variable (d live) in
/-- An automaton whose transitions lead to live states only. They are reached from the initial
state; from each of them a word is accepted, or there is no other than the initial one. -/
structure Pruned : Prop extends WellFormed d where
  initial_live : isLive live d.initial = true
  next_live : ∀ {state symbol other}, d.next state symbol = some other → isLive live other = true
  reached : ∀ {state}, isLive live state = true → ∃ w, d.run d.initial w = some state
  productive : (∀ state, isLive live state = true → ∃ w, w ∈ d.wordsFrom state) ∨
    ∀ state, isLive live state = true → state = d.initial

theorem Pruned.lt_size (hd : d.Pruned live) (hlive : isLive live state = true) :
    state < d.size := by
  obtain ⟨w, hw⟩ := hd.reached hlive
  exact hd.run_lt hd.initial_lt hw

theorem pruned_restrict (hd : d.WellFormed) : (d.restrict d.live).Pruned d.live where
  toWellFormed := hd.restrict
  initial_live := (isLive_live hd).2 ⟨⟨[], rfl⟩, .inr rfl⟩
  next_live hnext := (next_restrict_eq_some_iff.1 hnext).2
  reached := by
    intro q hq
    obtain ⟨⟨w, hw⟩, hproductive | rfl⟩ := (isLive_live hd).1 hq
    · exact ⟨w, run_restrict hd (u := []) rfl hw hproductive⟩
    · exact ⟨[], rfl⟩
  productive := by
    by_cases hwords : ∃ w, w ∈ d.words
    · refine .inl fun q hq => ?_
      obtain ⟨⟨w, hw⟩, hproductive | rfl⟩ := (isLive_live hd).1 hq
      · rw [wordsFrom_restrict hd hw]
        exact hproductive
      · rw [wordsFrom_restrict hd hw]
        exact hwords
    · -- a word that is accepted from a reached state would continue to one of the automaton
      refine .inr fun q hq => ?_
      obtain ⟨⟨w, hw⟩, ⟨v, hv⟩ | rfl⟩ := (isLive_live hd).1 hq
      · exact absurd ⟨w ++ v, append_mem_wordsFrom.2 ⟨q, hw, hv⟩⟩ hwords
      · rfl

end CallChain.Dfa
