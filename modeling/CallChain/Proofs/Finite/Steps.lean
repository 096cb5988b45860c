import CallChain.Proofs.Discovery
import CallChain.Proofs.Finite.Language
import CallChain.Proofs.Lists

/-!
# Automata of step functions

What `Dfa.ofSteps` makes is described by the step function alone: its words are those whose walk
from the start ends in an accepting element, its states are the elements that walks reach. This
needs a bound that covers a stock of elements which no step leaves (`Bounded`).

* `mem_words_ofSteps`: the words.
* `wellFormed_ofSteps`: all transitions lead to states.
* `exists_run_ofSteps`: every state is reached.
* `ofSteps_map`: other names for what is searched make no difference.
-/

namespace CallChain.Dfa

variable {σ : Type} (alphabet : Nat) (step : σ → Nat → Option σ)

/-- Where a word leads by a step function; symbols outside of the alphabet lead nowhere. -/
def walk (s : σ) : List Nat → Option σ
  | [] => some s
  | symbol :: word => if symbol < alphabet then (step s symbol).bind (walk · word) else none

/-- A bound covers a stock of elements that holds the start and that no step leaves. -/
def Bounded (bound : Nat) (start : σ) : Prop :=
  ∃ stock : List σ, start ∈ stock ∧ stock.length ≤ bound ∧
    ∀ s ∈ stock, ∀ symbol < alphabet, ∀ s', step s symbol = some s' → s' ∈ stock

variable {alphabet step} {s s' : σ} {symbol : Nat} {u v w : List Nat}

theorem walk_append :
    walk alphabet step s (u ++ v) = (walk alphabet step s u).bind (walk alphabet step · v) := by
  induction u generalizing s with
  | nil => rfl
  | cons symbol u ih =>
    simp only [List.cons_append, walk]
    split
    · cases step s symbol <;> simp [ih]
    · rfl

theorem walk_singleton (h : symbol < alphabet) : walk alphabet step s [symbol] = step s symbol := by
  simp [walk, h]

variable {bound : Nat} {start : σ} [BEq σ] [LawfulBEq σ]

/-! ### States -/

omit [BEq σ] [LawfulBEq σ] in
/-- A search in steps stays within a stock that its bound covers. -/
theorem Bounded.exists_confined (h : Bounded alphabet step bound start) :
    ∃ stock, Confined (fun s => (List.range alphabet).filterMap (step s)) [start] stock ∧
      stock.length ≤ bound := by
  obtain ⟨stock, hstart, hlen, hstock⟩ := h
  refine ⟨stock, ⟨by simpa using hstart, ?_⟩, hlen⟩
  intro x hx y hy
  obtain ⟨symbol, hsymbol, hxy⟩ := List.mem_filterMap.1 hy
  exact hstock x hx symbol (List.mem_range.1 hsymbol) y hxy

omit [BEq σ] [LawfulBEq σ] in
/-- Steps reach what walks reach. -/
theorem reached_iff_exists_walk :
    Reached (fun s => (List.range alphabet).filterMap (step s)) [start] s ↔
      ∃ w, walk alphabet step start w = some s := by
  constructor
  · intro hs
    induction hs with
    | seed hx => exact ⟨[], by rw [List.mem_singleton.1 hx]; rfl⟩
    | step _ hy ih =>
      obtain ⟨w, hw⟩ := ih
      obtain ⟨symbol, hsymbol, hxy⟩ := List.mem_filterMap.1 hy
      refine ⟨w ++ [symbol], ?_⟩
      rw [walk_append, hw, Option.bind_some, walk_singleton (List.mem_range.1 hsymbol), hxy]
  · rintro ⟨w, hw⟩
    induction w using List.reverseRecOn generalizing s with
    | nil =>
      cases hw
      exact .seed (by simp)
    | append_singleton w symbol ih =>
      rw [walk_append] at hw
      obtain ⟨t, ht, hs⟩ := Option.bind_eq_some_iff.1 hw
      simp only [walk] at hs
      split at hs
      · next hlt =>
        refine .step (ih ht) (List.mem_filterMap.2 ⟨symbol, List.mem_range.2 hlt, ?_⟩)
        simpa using hs
      · cases hs

/-- The states stand for what walks from the start reach. -/
theorem mem_stepOrder (h : Bounded alphabet step bound start) :
    s ∈ stepOrder alphabet step bound start ↔ ∃ w, walk alphabet step start w = some s := by
  obtain ⟨stock, hconfined, hlen⟩ := h.exists_confined
  rw [stepOrder, mem_discover_iff hconfined hlen]
  exact reached_iff_exists_walk

/-- What is met is the start, or what a step leads to from something that a walk reaches. -/
theorem eq_start_or_step (h : Bounded alphabet step bound start)
    (hs : s ∈ stepOrder alphabet step bound start) :
    s = start ∨ ∃ w t symbol, walk alphabet step start w = some t ∧ step t symbol = some s := by
  obtain ⟨w, hw⟩ := (mem_stepOrder h).1 hs
  cases w using List.reverseRecOn with
  | nil =>
    cases hw
    exact .inl rfl
  | append_singleton w symbol =>
    rw [walk_append] at hw
    obtain ⟨t, ht, hs'⟩ := Option.bind_eq_some_iff.1 hw
    simp only [walk] at hs'
    split at hs'
    · exact .inr ⟨w, t, symbol, ht, by simpa using hs'⟩
    · cases hs'

variable (alphabet step bound start) in
theorem start_mem_stepOrder : start ∈ stepOrder alphabet step bound start := by
  refine seeds_prefix_discover.subset ?_
  simp [fresh]

/-- The start is the first state. -/
theorem idxOf_start : (stepOrder alphabet step bound start).idxOf start = 0 := by
  obtain ⟨rest, hrest⟩ : fresh [] [start] <+: stepOrder alphabet step bound start :=
    seeds_prefix_discover
  rw [← hrest]
  simp [fresh]

variable (accepting : σ → Bool)

omit [LawfulBEq σ] in
theorem size_ofSteps : (ofSteps alphabet step accepting bound start).size =
    (stepOrder alphabet step bound start).length := by
  simp [ofSteps, size]

omit [LawfulBEq σ] in
/-- The elements of the search, by the number of their state. -/
theorem rows_ofSteps (i : Nat) : (ofSteps alphabet step accepting bound start).rows[i]? =
    (stepOrder alphabet step bound start)[i]?.map fun s =>
      ⟨accepting s, (List.range alphabet).map fun symbol =>
        (step s symbol).map (stepOrder alphabet step bound start).idxOf⟩ := by
  simp [ofSteps]

theorem isAccepting_ofSteps (hs : s ∈ stepOrder alphabet step bound start) :
    (ofSteps alphabet step accepting bound start).isAccepting
      ((stepOrder alphabet step bound start).idxOf s) = accepting s := by
  rw [isAccepting, rows_ofSteps, List.getElem?_idxOf hs]
  rfl

/-- A state leads where its element steps to. -/
theorem next_ofSteps (hs : s ∈ stepOrder alphabet step bound start) :
    (ofSteps alphabet step accepting bound start).next
      ((stepOrder alphabet step bound start).idxOf s) symbol =
      if symbol < alphabet then (step s symbol).map (stepOrder alphabet step bound start).idxOf
      else none := by
  rw [next, targets, rows_ofSteps, List.getElem?_idxOf hs]
  by_cases h : symbol < alphabet
  · simp [h]
  · have : ¬ symbol < (List.range alphabet).length := by simpa using h
    simp [h]

/-- A step from an element that is met leads to one that is met. -/
theorem step_mem_stepOrder (h : Bounded alphabet step bound start)
    (hs : s ∈ stepOrder alphabet step bound start) (hsymbol : symbol < alphabet)
    (hstep : step s symbol = some s') : s' ∈ stepOrder alphabet step bound start := by
  obtain ⟨w, hw⟩ := (mem_stepOrder h).1 hs
  refine (mem_stepOrder h).2 ⟨w ++ [symbol], ?_⟩
  rw [walk_append, hw, Option.bind_some, walk_singleton hsymbol, hstep]

/-- A loop at the initial state is one at the start. -/
theorem next_initial_ofSteps :
    (ofSteps alphabet step accepting bound start).next 0 symbol = some 0 ↔
      symbol < alphabet ∧ step start symbol = some start := by
  have hstart := start_mem_stepOrder alphabet step bound start
  have hloop : (ofSteps alphabet step accepting bound start).next _ symbol = _ :=
    next_ofSteps accepting hstart
  rw [idxOf_start] at hloop
  rw [hloop, Option.ite_none_right_eq_some, Option.map_eq_some_iff]
  refine and_congr_right fun _ => ?_
  constructor
  · rintro ⟨s, hs, hidx⟩
    have hsame : (stepOrder alphabet step bound start).idxOf start =
        (stepOrder alphabet step bound start).idxOf s := idxOf_start.trans hidx.symm
    rw [hs, (List.idxOf_inj hstart).1 hsame]
  · intro hstep
    exact ⟨start, hstep, idxOf_start⟩

/-! ### Runs -/

/-- Runs are walks. -/
theorem run_ofSteps (h : Bounded alphabet step bound start)
    (hs : s ∈ stepOrder alphabet step bound start) :
    (ofSteps alphabet step accepting bound start).run
      ((stepOrder alphabet step bound start).idxOf s) w =
      (walk alphabet step s w).map (stepOrder alphabet step bound start).idxOf := by
  induction w generalizing s with
  | nil => rfl
  | cons symbol w ih =>
    rw [run, next_ofSteps accepting hs, walk]
    split
    · next hlt =>
      cases hstep : step s symbol with
      | none => rfl
      | some s' =>
        rw [Option.map_some, Option.bind_some, Option.bind_some]
        exact ih (step_mem_stepOrder h hs hlt hstep)
    · rfl

/-- What is accepted from a state on is what walks from its element accept. -/
theorem mem_wordsFrom_ofSteps (h : Bounded alphabet step bound start)
    (hs : s ∈ stepOrder alphabet step bound start) :
    w ∈ (ofSteps alphabet step accepting bound start).wordsFrom
      ((stepOrder alphabet step bound start).idxOf s) ↔
      ∃ s', walk alphabet step s w = some s' ∧ accepting s' = true := by
  have hmet {s'} (hw : walk alphabet step s w = some s') :
      s' ∈ stepOrder alphabet step bound start := by
    obtain ⟨u, hu⟩ := (mem_stepOrder h).1 hs
    refine (mem_stepOrder h).2 ⟨u ++ w, ?_⟩
    rw [walk_append, hu, Option.bind_some, hw]
  simp only [mem_wordsFrom, run_ofSteps accepting h hs, Option.map_eq_some_iff]
  constructor
  · rintro ⟨_, ⟨s', hw, rfl⟩, hacc⟩
    rw [isAccepting_ofSteps accepting (hmet hw)] at hacc
    exact ⟨s', hw, hacc⟩
  · rintro ⟨s', hw, hacc⟩
    refine ⟨_, ⟨s', hw, rfl⟩, ?_⟩
    rwa [isAccepting_ofSteps accepting (hmet hw)]

/-- A word is accepted if its walk from the start ends in an accepting element. -/
theorem mem_words_ofSteps (h : Bounded alphabet step bound start) :
    w ∈ (ofSteps alphabet step accepting bound start).words ↔
      ∃ s, walk alphabet step start w = some s ∧ accepting s = true := by
  have hstart := start_mem_stepOrder alphabet step bound start
  rw [words_eq, ← mem_wordsFrom_ofSteps accepting h hstart, idxOf_start]
  rfl

/-- Every state of an automaton stands for an element that was met. -/
theorem exists_idxOf_eq {accepting : σ → Bool} {i : Nat}
    (hi : i < (ofSteps alphabet step accepting bound start).size) :
    ∃ s ∈ stepOrder alphabet step bound start,
      (stepOrder alphabet step bound start).idxOf s = i := by
  rw [size_ofSteps] at hi
  refine ⟨_, List.getElem_mem hi, ?_⟩
  exact nodup_discover.idxOf_getElem i hi

/-- Every state is reached. -/
theorem exists_run_ofSteps {accepting : σ → Bool} (h : Bounded alphabet step bound start) {i : Nat}
    (hi : i < (ofSteps alphabet step accepting bound start).size) :
    ∃ w, (ofSteps alphabet step accepting bound start).run 0 w = some i := by
  obtain ⟨s, hs, rfl⟩ := exists_idxOf_eq hi
  obtain ⟨w, hw⟩ := (mem_stepOrder h).1 hs
  refine ⟨w, ?_⟩
  have hrun : _ = (walk alphabet step start w).map _ :=
    run_ofSteps accepting h (start_mem_stepOrder alphabet step bound start)
  rwa [idxOf_start, hw] at hrun

theorem wellFormed_ofSteps (h : Bounded alphabet step bound start) :
    (ofSteps alphabet step accepting bound start).WellFormed where
  initial_lt := by
    rw [size_ofSteps]
    exact List.length_pos_of_mem (start_mem_stepOrder alphabet step bound start)
  length_targets i hi := by
    obtain ⟨s, hs, rfl⟩ := exists_idxOf_eq hi
    rw [targets, rows_ofSteps, List.getElem?_idxOf hs]
    simp [ofSteps]
  next_lt := by
    intro i symbol other hnext
    obtain ⟨s, hs, rfl⟩ := exists_idxOf_eq (lt_size_of_next hnext)
    rw [next_ofSteps accepting hs] at hnext
    split at hnext
    · next hlt =>
      obtain ⟨s', hstep, rfl⟩ := Option.map_eq_some_iff.1 hnext
      rw [size_ofSteps]
      exact List.idxOf_lt_length_of_mem (step_mem_stepOrder h hs hlt hstep)
    · cases hnext

/-! ### Matching step functions -/

section Matching

variable {τ : Type} [BEq τ] [LawfulBEq τ] {step' : τ → Nat → Option τ} {accepting' : τ → Bool}
  {bound' : Nat} {f : σ → τ}

/-- Elements that others stand for, step by step, are met in the same order. -/
theorem stepOrder_map (h : Bounded alphabet step bound start)
    (h' : Bounded alphabet step' bound' (f start))
    (hf : ∀ s ∈ stepOrder alphabet step bound start, ∀ s' ∈ stepOrder alphabet step bound start,
      f s = f s' → s = s')
    (hstep : ∀ s ∈ stepOrder alphabet step bound start, ∀ symbol < alphabet,
      step' (f s) symbol = (step s symbol).map f) :
    stepOrder alphabet step' bound' (f start) = (stepOrder alphabet step bound start).map f := by
  obtain ⟨stock, hconfined, hlen⟩ := h.exists_confined
  obtain ⟨stock', hconfined', hlen'⟩ := h'.exists_confined
  have hmem {s : σ} (hs : Reached (fun s => (List.range alphabet).filterMap (step s)) [start] s) :
      s ∈ stepOrder alphabet step bound start := (mem_discover_iff hconfined hlen).2 hs
  -- both searches are run with a bound that covers either
  have hbound := discover_eq_of_le hconfined hlen (Nat.le_max_left bound bound')
  have hbound' := discover_eq_of_le hconfined' hlen' (Nat.le_max_right bound bound')
  unfold stepOrder at hf hstep hmem ⊢
  rw [← hbound', ← hbound, ← List.map_singleton]
  refine discover_map (fun s hs s' hs' => hf s (hmem hs) s' (hmem hs')) fun s hs => ?_
  rw [List.map_filterMap]
  refine List.filterMap_congr fun symbol hsymbol => ?_
  exact hstep s (hmem hs) symbol (List.mem_range.1 hsymbol)

variable {accepting} in
/-- Elements that others stand for, step by step, make the same automaton. -/
theorem ofSteps_map (h : Bounded alphabet step bound start)
    (h' : Bounded alphabet step' bound' (f start))
    (hf : ∀ s ∈ stepOrder alphabet step bound start, ∀ s' ∈ stepOrder alphabet step bound start,
      f s = f s' → s = s')
    (hstep : ∀ s ∈ stepOrder alphabet step bound start, ∀ symbol < alphabet,
      step' (f s) symbol = (step s symbol).map f)
    (haccepting : ∀ s ∈ stepOrder alphabet step bound start, accepting' (f s) = accepting s) :
    ofSteps alphabet step' accepting' bound' (f start) =
      ofSteps alphabet step accepting bound start := by
  unfold ofSteps
  dsimp only
  rw [stepOrder_map h h' hf hstep, List.map_map]
  refine congrArg (fun rows : List Row => Dfa.mk alphabet rows.toArray 0) ?_
  refine List.map_congr_left fun s hs => ?_
  rw [Function.comp_apply, haccepting s hs]
  refine congrArg (Row.mk (accepting s)) (List.map_congr_left fun symbol hsymbol => ?_)
  rw [List.mem_range] at hsymbol
  rw [hstep s hs symbol hsymbol]
  cases htarget : step s symbol with
  | none => rfl
  | some s' =>
    have hs' := step_mem_stepOrder h hs hsymbol htarget
    exact congrArg some (idxOf_map fun t ht => hf t ht s' hs')

end Matching

end CallChain.Dfa
