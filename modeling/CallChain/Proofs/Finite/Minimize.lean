import CallChain.Proofs.Finite.Blocks

/-!
# The smallest automaton

`Dfa.minimize` keeps the words of an automaton and leaves no two states that accept the same words.

* `words_minimize`: no word is lost or added.
* `minimal_minimize`: what is left.
* `next_minimize_initial_iff`: what becomes of loops where no word is accepted.
-/

namespace CallChain.Dfa

variable {d : Dfa} {live : Array Bool} {p q symbol : Nat} {w : List Nat}

/-! ### Steps of blocks -/

/-- Each block of a live state is represented by a state that belongs to it. -/
theorem exists_representative {blocks : Blocks} (hcounted : d.Counted live blocks)
    {block : Nat} (hblock : block < blocks.count) :
    ∃ state, (d.representatives live blocks)[block]? = some (some state) ∧
      state ∈ d.liveStates live ∧ blocks.of state = block := by
  have hentry : (d.representatives live blocks)[block]? =
      some (d.states.find? fun state => isLive live state && blocks.of state = block) := by
    simp [representatives, hblock]
  rw [hentry]
  cases hfind : d.states.find? fun state => isLive live state && blocks.of state = block with
  | some state =>
    have hstate := List.find?_some hfind
    rw [Bool.and_eq_true, decide_eq_true_eq] at hstate
    have hlt : state < d.size := List.mem_range.1 (List.mem_of_find?_eq_some hfind)
    exact ⟨state, rfl, mem_liveStates.2 ⟨hlt, hstate.1⟩, hstate.2⟩
  | none =>
    obtain ⟨q, hq, hof⟩ := hcounted.exists_of_eq block hblock
    obtain ⟨hlt, hlive⟩ := mem_liveStates.1 hq
    have hnone := List.find?_eq_none.1 hfind q (List.mem_range.2 hlt)
    simp [hlive, hof] at hnone

variable (d live) in
/-- The block that a symbol leads to. -/
abbrev nextBlock : Nat → Nat → Option Nat :=
  d.blockStep (d.blocks live) (d.representatives live (d.blocks live))

variable (d live) in
/-- Do words end in the states of a block? -/
abbrev acceptingBlock (block : Nat) : Bool :=
  (d.representatives live (d.blocks live))[block]?.join.any d.isAccepting

variable (d live) in
/-- The automaton with one state per block. -/
abbrev merged : Dfa := d.merge live (d.blocks live)

section Pruned

variable (hd : d.Pruned live)

include hd

/-- The block of a state leads to the block of the state that follows. -/
theorem Pruned.nextBlock_of (hq : isLive live q = true) :
    d.nextBlock live ((d.blocks live).of q) symbol =
      (d.next q symbol).map (d.blocks live).of := by
  obtain ⟨state, hstate, hmem, hof⟩ :=
    exists_representative hd.counted_blocks (hd.counted_blocks.of_lt q (hd.mem_of_isLive hq))
  rw [← hd.next_of_blocks (mem_liveStates.1 hmem).2 hq hof, nextBlock, blockStep, hstate]
  show (d.next state symbol).bind _ = _
  rw [Option.map_eq_bind]
  rfl

theorem Pruned.acceptingBlock_of (hq : isLive live q = true) :
    d.acceptingBlock live ((d.blocks live).of q) = d.isAccepting q := by
  obtain ⟨state, hstate, hmem, hof⟩ :=
    exists_representative hd.counted_blocks (hd.counted_blocks.of_lt q (hd.mem_of_isLive hq))
  rw [acceptingBlock, hstate]
  exact hd.isAccepting_eq_of_blocks (mem_liveStates.1 hmem).2 hq hof

theorem Pruned.bounded_nextBlock :
    Bounded d.alphabet (d.nextBlock live) (d.blocks live).count
      ((d.blocks live).of d.initial) := by
  have hlt {q : Nat} (hq : isLive live q = true) : (d.blocks live).of q < (d.blocks live).count :=
    hd.counted_blocks.of_lt q (hd.mem_of_isLive hq)
  refine ⟨List.range (d.blocks live).count, List.mem_range.2 (hlt hd.initial_live), by simp, ?_⟩
  intro block hblock symbol _ target htarget
  obtain ⟨q, hq, rfl⟩ := hd.counted_blocks.exists_of_eq block (List.mem_range.1 hblock)
  rw [hd.nextBlock_of (mem_liveStates.1 hq).2] at htarget
  obtain ⟨t, ht, rfl⟩ := Option.map_eq_some_iff.1 htarget
  exact List.mem_range.2 (hlt (hd.next_live ht))

/-- A walk through the blocks is a run through the states. -/
theorem Pruned.walk_nextBlock (hq : isLive live q = true) :
    walk d.alphabet (d.nextBlock live) ((d.blocks live).of q) w =
      (d.run q w).map (d.blocks live).of := by
  induction w generalizing q with
  | nil => rfl
  | cons symbol w ih =>
    rw [walk, hd.nextBlock_of hq, run]
    cases ht : d.next q symbol with
    | none => simp
    | some t =>
      rw [if_pos (hd.symbol_lt ht)]
      exact ih (hd.next_live ht)

theorem Pruned.isLive_of_run (hq : isLive live q = true) (hw : d.run q w = some p) :
    isLive live p = true := by
  induction w generalizing q with
  | nil =>
    cases hw
    exact hq
  | cons symbol w ih =>
    obtain ⟨t, ht, hw⟩ := Option.bind_eq_some_iff.1 hw
    exact ih (hd.next_live ht) hw

/-- All blocks are met, and only those. -/
theorem Pruned.mem_stepOrder_iff : p ∈ stepOrder d.alphabet (d.nextBlock live)
    (d.blocks live).count ((d.blocks live).of d.initial) ↔
    ∃ q, isLive live q = true ∧ (d.blocks live).of q = p := by
  rw [mem_stepOrder hd.bounded_nextBlock]
  simp only [hd.walk_nextBlock hd.initial_live, Option.map_eq_some_iff]
  constructor
  · rintro ⟨w, q, hw, rfl⟩
    exact ⟨q, hd.isLive_of_run hd.initial_live hw, rfl⟩
  · rintro ⟨q, hq, rfl⟩
    obtain ⟨w, hw⟩ := hd.reached hq
    exact ⟨w, q, hw, rfl⟩

variable (d live) in
/-- The number of the state for the block of a live state. -/
abbrev numberOf (q : Nat) : Nat :=
  (stepOrder d.alphabet (d.nextBlock live) (d.blocks live).count
    ((d.blocks live).of d.initial)).idxOf ((d.blocks live).of q)

/-- The words from a block on are the words from its states on. -/
theorem Pruned.wordsFrom_merged (hq : isLive live q = true) :
    (d.merged live).wordsFrom (d.numberOf live q) = d.wordsFrom q := by
  ext w
  show w ∈ (ofSteps _ _ _ _ _).wordsFrom _ ↔ _
  rw [mem_wordsFrom_ofSteps (d.acceptingBlock live) hd.bounded_nextBlock
    (hd.mem_stepOrder_iff.2 ⟨q, hq, rfl⟩), mem_wordsFrom, hd.walk_nextBlock hq]
  constructor
  · rintro ⟨_, hw, hacc⟩
    obtain ⟨t, ht, rfl⟩ := Option.map_eq_some_iff.1 hw
    rw [hd.acceptingBlock_of (hd.isLive_of_run hq ht)] at hacc
    exact ⟨t, ht, hacc⟩
  · rintro ⟨t, ht, hacc⟩
    refine ⟨(d.blocks live).of t, by rw [ht]; rfl, ?_⟩
    rwa [hd.acceptingBlock_of (hd.isLive_of_run hq ht)]

theorem Pruned.words_merged : (d.merged live).words = d.words := by
  have hwords := hd.wordsFrom_merged hd.initial_live
  rw [numberOf, idxOf_start] at hwords
  exact hwords

/-- Every state stands for the block of a live state. -/
theorem Pruned.exists_numberOf_eq {i : Nat} (hi : i < (d.merged live).size) :
    ∃ q, isLive live q = true ∧ d.numberOf live q = i := by
  obtain ⟨p, hmem, rfl⟩ := exists_idxOf_eq hi
  obtain ⟨q, hq, rfl⟩ := hd.mem_stepOrder_iff.1 hmem
  exact ⟨q, hq, rfl⟩

theorem Pruned.next_merged_initial_iff :
    (d.merged live).next (d.merged live).initial symbol = some (d.merged live).initial ↔
      ∃ t, d.next d.initial symbol = some t ∧
        (d.blocks live).of t = (d.blocks live).of d.initial := by
  show (ofSteps _ _ _ _ _).next 0 symbol = some 0 ↔ _
  rw [next_initial_ofSteps]
  show _ ∧ d.nextBlock live ((d.blocks live).of d.initial) symbol = _ ↔ _
  rw [hd.nextBlock_of hd.initial_live, Option.map_eq_some_iff]
  exact and_iff_right_of_imp fun ⟨_, ht, _⟩ => hd.symbol_lt ht

end Pruned

/-! ### The result -/

variable (d) in
/-- All states are reached from the initial one, which is the first; a word is accepted from each
state, or there is no other than the initial one; and no two states accept the same words. -/
structure Minimal : Prop extends WellFormed d where
  initial_eq : d.initial = 0
  reached : ∀ state < d.size, ∃ w, d.run 0 w = some state
  live : (∀ state < d.size, ∃ w, w ∈ d.wordsFrom state) ∨ d.size = 1
  distinct : ∀ p < d.size, ∀ q < d.size, d.wordsFrom p = d.wordsFrom q → p = q

/-- Where some word is accepted one is accepted from every state. -/
theorem Minimal.live_of_mem (hd : d.Minimal) (hw : w ∈ d.words) :
    ∀ q < d.size, ∃ v, v ∈ d.wordsFrom q := by
  rcases hd.live with hlive | hsize
  · exact hlive
  · intro q hq
    have hinit : q = d.initial := by
      have := hd.initial_lt
      omega
    exact ⟨w, hinit ▸ hw⟩

/-- One is, too, where a step leads away from the initial state. -/
theorem Minimal.live_of_next {s q : Nat} (hd : d.Minimal) (hnext : d.next d.initial s = some q)
    (haway : d.words = 0 → q ≠ d.initial) : ∀ p < d.size, ∃ v, v ∈ d.wordsFrom p := by
  by_cases hnone : d.words = 0
  · rcases hd.live with hlive | hsize
    · exact hlive
    · -- the only state is the initial one
      have hsame : q = d.initial := by
        have := hd.next_lt hnext
        have := hd.initial_lt
        omega
      exact absurd hsame (haway hnone)
  · obtain ⟨w, hw⟩ := Set.nonempty_iff_ne_empty.2 hnone
    exact hd.live_of_mem hw

theorem Pruned.minimal_merged (hd : d.Pruned live) : (d.merged live).Minimal where
  toWellFormed := wellFormed_ofSteps (d.acceptingBlock live) hd.bounded_nextBlock
  initial_eq := rfl
  reached i hi := exists_run_ofSteps hd.bounded_nextBlock hi
  live := by
    rcases hd.productive with hproductive | hinitial
    · refine .inl fun i hi => ?_
      obtain ⟨q, hq, rfl⟩ := hd.exists_numberOf_eq hi
      rw [hd.wordsFrom_merged hq]
      exact hproductive q hq
    · -- all states are for the block of the initial state
      refine .inr ?_
      have hlt {i : Nat} (hi : i < (d.merged live).size) : i = 0 := by
        obtain ⟨q, hq, rfl⟩ := hd.exists_numberOf_eq hi
        rw [hinitial q hq, numberOf]
        exact idxOf_start
      have hpos : 0 < (d.merged live).size :=
        (wellFormed_ofSteps (d.acceptingBlock live) hd.bounded_nextBlock).initial_lt
      have := @hlt ((d.merged live).size - 1) (by omega)
      omega
  distinct i hi j hj h := by
    obtain ⟨p, hp, rfl⟩ := hd.exists_numberOf_eq hi
    obtain ⟨q, hq, rfl⟩ := hd.exists_numberOf_eq hj
    rw [hd.wordsFrom_merged hp, hd.wordsFrom_merged hq, ← hd.of_blocks_eq_iff hp hq] at h
    rw [numberOf, numberOf, h]

/-- No word is lost or added. -/
theorem words_minimize (hd : d.WellFormed) : d.minimize.words = d.words :=
  (pruned_restrict hd).words_merged.trans (words_restrict hd)

theorem minimal_minimize (hd : d.WellFormed) : d.minimize.Minimal :=
  (pruned_restrict hd).minimal_merged

/-- Where no word is accepted the loops at the initial state are kept. -/
theorem next_minimize_initial_iff (hd : d.WellFormed) (hempty : d.words = 0) :
    d.minimize.next d.minimize.initial symbol = some d.minimize.initial ↔
      d.next d.initial symbol = some d.initial := by
  have hpruned := pruned_restrict hd
  have honly : ∀ q, isLive d.live q = true → q = d.initial := by
    rcases hpruned.productive with hproductive | hinitial
    · obtain ⟨w, hw⟩ := hproductive _ hpruned.initial_live
      rw [← words_eq, words_restrict hd, hempty] at hw
      exact hw.elim
    · exact hinitial
  refine hpruned.next_merged_initial_iff.trans ?_
  constructor
  · rintro ⟨t, ht, -⟩
    obtain ⟨hnext, hlive⟩ := next_restrict_eq_some_iff.1 ht
    rwa [honly t hlive] at hnext
  · intro hnext
    exact ⟨d.initial, next_restrict_eq_some_iff.2 ⟨hnext, hpruned.initial_live⟩, rfl⟩

theorem alphabet_minimize : d.minimize.alphabet = d.alphabet := rfl

end CallChain.Dfa
