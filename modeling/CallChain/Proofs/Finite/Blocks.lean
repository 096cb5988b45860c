import CallChain.Proofs.Finite.Live
import Mathlib.Data.Finset.Card

/-!
# Blocks of states

Dividing the live states of an automaton ends, after at most as many rounds as there are states and
one more, with one block for each language that is accepted from a live state. A round never puts
together what the one before took apart, so the blocks can only become more; a round that counts as
many as the one before has taken nothing apart (`Counted.signature_eq`). No round separates states
from which the same words are accepted, and the last one separates all others.

The blocks of two rounds are compared as divisions of the live states: the numbers are given anew in
every round, and those of other states mean nothing.

* `exists_rounds_blocks`: the rounds of dividing.
* `next_of_blocks`: the division has come to an end.
* `Pruned.of_blocks_eq_iff`: what the blocks are.
-/

namespace CallChain

/-! ### Numbers of entries -/

section Looks

variable {α : Type} [BEq α] [LawfulBEq α] {looks : List (Option α)} {i j : Nat} {x y : α}

theorem mem_seen : x ∈ fresh [] (looks.filterMap id) ↔ some x ∈ looks := by
  simp [mem_fresh]

omit [LawfulBEq α] in
theorem getD_numberLooks (hi : looks[i]? = some (some x)) :
    (numberLooks looks).1.getD i 0 = (fresh [] (looks.filterMap id)).idxOf x := by
  rw [numberLooks, Array.getD_eq_getD_getElem?, List.getElem?_toArray, List.getElem?_map, hi]
  rfl

theorem getD_numberLooks_lt (hi : looks[i]? = some (some x)) :
    (numberLooks looks).1.getD i 0 < (numberLooks looks).2 := by
  rw [getD_numberLooks hi]
  exact List.idxOf_lt_length_of_mem (mem_seen.2 (List.mem_of_getElem? hi))

/-- Entries have one number exactly if they are equal. -/
theorem getD_numberLooks_eq_iff (hi : looks[i]? = some (some x)) (hj : looks[j]? = some (some y)) :
    (numberLooks looks).1.getD i 0 = (numberLooks looks).1.getD j 0 ↔ x = y := by
  rw [getD_numberLooks hi, getD_numberLooks hj]
  exact List.idxOf_inj (mem_seen.2 (List.mem_of_getElem? hi))

/-- No number is left out. -/
theorem exists_getD_numberLooks_eq {n : Nat} (hn : n < (numberLooks looks).2) :
    ∃ i x, looks[i]? = some (some x) ∧ (numberLooks looks).1.getD i 0 = n := by
  have hmem := mem_seen.1 (List.getElem_mem hn)
  obtain ⟨i, hi⟩ := List.mem_iff_getElem?.1 hmem
  refine ⟨i, _, hi, ?_⟩
  rw [getD_numberLooks hi]
  exact nodup_fresh.idxOf_getElem n hn

end Looks

/-! ### Finer divisions -/

section Finer

variable {ι α β : Type} [DecidableEq α] [DecidableEq β] {S : Finset ι} {f : ι → α} {g : ι → β}

/-- What is taken apart by one of two functions at least is told apart by the finer one. -/
theorem card_image_pair (h : ∀ p ∈ S, ∀ q ∈ S, g p = g q → f p = f q) :
    (S.image fun p => (f p, g p)).card = (S.image g).card := by
  have himage : (S.image fun p => (f p, g p)).image Prod.snd = S.image g := by
    rw [Finset.image_image]
    rfl
  rw [← himage]
  symm
  apply Finset.card_image_of_injOn
  -- a value of the finer function settles the pair
  intro x hx y hy hxy
  obtain ⟨p, hp, rfl⟩ := Finset.mem_image.1 (Finset.mem_coe.1 hx)
  obtain ⟨q, hq, rfl⟩ := Finset.mem_image.1 (Finset.mem_coe.1 hy)
  exact Prod.ext (h p hp q hq hxy) hxy

theorem image_fst_pair : (S.image fun p => (f p, g p)).image Prod.fst = S.image f := by
  rw [Finset.image_image]
  rfl

/-- A finer function has at least as many values. -/
theorem card_image_le_of_finer (h : ∀ p ∈ S, ∀ q ∈ S, g p = g q → f p = f q) :
    (S.image f).card ≤ (S.image g).card := by
  rw [← card_image_pair h, ← image_fst_pair (g := g)]
  exact Finset.card_image_le

/-- A finer function with as many values takes nothing further apart. -/
theorem eq_of_card_image_eq (h : ∀ p ∈ S, ∀ q ∈ S, g p = g q → f p = f q)
    (hcard : (S.image f).card = (S.image g).card) {p q : ι} (hp : p ∈ S) (hq : q ∈ S)
    (hpq : f p = f q) : g p = g q := by
  rw [← card_image_pair h, ← image_fst_pair (g := g)] at hcard
  have hinj := Finset.card_image_iff.1 hcard
  have hpair : (f p, g p) = (f q, g q) := by
    apply hinj
    · exact Finset.mem_coe.2 (Finset.mem_image_of_mem _ hp)
    · exact Finset.mem_coe.2 (Finset.mem_image_of_mem _ hq)
    · exact hpq
  exact congrArg Prod.snd hpair

end Finer

namespace Dfa

variable {d : Dfa} {live : Array Bool} {blocks : Blocks} {p q symbol : Nat} {w : List Nat}

/-! ### One round -/

variable (d live) in
/-- The live states. -/
def liveStates : Finset Nat := {q ∈ Finset.range d.size | isLive live q = true}

theorem mem_liveStates : q ∈ d.liveStates live ↔ q < d.size ∧ isLive live q = true := by
  rw [liveStates, Finset.mem_filter, Finset.mem_range]

variable (d live) in
/-- The blocks of the live states are numbered from 0, without gaps. -/
structure Counted (blocks : Blocks) : Prop where
  of_lt : ∀ q ∈ d.liveStates live, blocks.of q < blocks.count
  exists_of_eq : ∀ n < blocks.count, ∃ q ∈ d.liveStates live, blocks.of q = n

theorem Counted.count_eq (h : d.Counted live blocks) :
    blocks.count = ((d.liveStates live).image blocks.of).card := by
  have himage : (d.liveStates live).image blocks.of = Finset.range blocks.count := by
    ext n
    rw [Finset.mem_image, Finset.mem_range]
    constructor
    · rintro ⟨q, hq, rfl⟩
      exact h.of_lt q hq
    · exact h.exists_of_eq n
  rw [himage, Finset.card_range]

theorem Counted.count_le (h : d.Counted live blocks) : blocks.count ≤ d.size := by
  rw [h.count_eq]
  calc ((d.liveStates live).image blocks.of).card
      ≤ (d.liveStates live).card := Finset.card_image_le
    _ ≤ (Finset.range d.size).card := Finset.card_filter_le _ _
    _ = d.size := Finset.card_range _

/-- What a round sees of a live state. -/
theorem look_eq (hq : q ∈ d.liveStates live) :
    (d.states.map fun state => if isLive live state then some (d.signature blocks state)
      else none)[q]? = some (some (d.signature blocks q)) := by
  obtain ⟨hlt, hlive⟩ := mem_liveStates.1 hq
  simp [states, hlt, hlive]

/-- Live states stay in one block if they look alike. -/
theorem of_divide_eq_iff (hp : p ∈ d.liveStates live) (hq : q ∈ d.liveStates live) :
    (d.divide live blocks).of p = (d.divide live blocks).of q ↔
      d.signature blocks p = d.signature blocks q :=
  getD_numberLooks_eq_iff (look_eq hp) (look_eq hq)

theorem signature_eq_iff : d.signature blocks p = d.signature blocks q ↔
    blocks.of p = blocks.of q ∧
      (d.targets p).map (·.map blocks.of) = (d.targets q).map (·.map blocks.of) := by
  rw [signature, signature, Prod.mk.injEq]

/-- A round never puts together what was apart. -/
theorem of_eq_of_divide (hp : p ∈ d.liveStates live) (hq : q ∈ d.liveStates live)
    (h : (d.divide live blocks).of p = (d.divide live blocks).of q) : blocks.of p = blocks.of q :=
  (signature_eq_iff.1 ((of_divide_eq_iff hp hq).1 h)).1

theorem counted_divide : d.Counted live (d.divide live blocks) where
  of_lt q hq := getD_numberLooks_lt (look_eq hq)
  exists_of_eq n hn := by
    obtain ⟨q, look, hlook, hof⟩ := exists_getD_numberLooks_eq hn
    refine ⟨q, ?_, hof⟩
    rw [List.getElem?_map, Option.map_eq_some_iff] at hlook
    obtain ⟨state, hstate, hlook⟩ := hlook
    obtain ⟨hlt, hget⟩ := List.getElem?_eq_some_iff.1 hstate
    have hstate : state = q := by simpa [states] using hget.symm
    rw [hstate] at hlook
    refine mem_liveStates.2 ⟨by simpa [states] using hlt, ?_⟩
    -- a state that is not live has no entry
    by_contra hdead
    rw [if_neg hdead] at hlook
    cases hlook

/-- A round counts at least as many blocks as the one before. -/
theorem Counted.count_le_divide (h : d.Counted live blocks) :
    blocks.count ≤ (d.divide live blocks).count := by
  rw [h.count_eq, counted_divide.count_eq]
  exact card_image_le_of_finer fun p hp q hq => of_eq_of_divide hp hq

/-- It is enough to count: if a round counts no further block then the states of each block look
alike. -/
theorem Counted.signature_eq (h : d.Counted live blocks)
    (hcount : (d.divide live blocks).count = blocks.count) (hp : p ∈ d.liveStates live)
    (hq : q ∈ d.liveStates live) (hpq : blocks.of p = blocks.of q) :
    d.signature blocks p = d.signature blocks q := by
  rw [h.count_eq, counted_divide.count_eq] at hcount
  rw [← of_divide_eq_iff hp hq]
  exact eq_of_card_image_eq (fun p hp q hq => of_eq_of_divide hp hq) hcount.symm hp hq hpq

/-! ### The rounds -/

/-- Dividing ends. Each round but the last counts further blocks, and there are no more rounds than
there are states that are not counted yet, and one. -/
theorem exists_rounds {fuel : Nat}
    (hblocks : blocks.count = 0 ∨ d.Counted live blocks) (hfuel : d.size < fuel + blocks.count) :
    ∃ rounds < fuel,
      (∀ round < rounds, ((d.divide live)^[round] blocks).count <
        ((d.divide live)^[round + 1] blocks).count) ∧
      ((d.divide live)^[rounds + 1] blocks).count = ((d.divide live)^[rounds] blocks).count ∧
      d.refine live fuel blocks = (d.divide live)^[rounds + 1] blocks := by
  -- a round that does not end counts a further block, and the fuel covers all there can be
  induction fuel generalizing blocks with
  | zero =>
    rcases hblocks with hzero | hcounted
    · omega
    · have := hcounted.count_le
      omega
  | succ fuel ih =>
    by_cases hcount : (d.divide live blocks).count = blocks.count
    · refine ⟨0, Nat.succ_pos fuel, by simp, hcount, ?_⟩
      show d.refine live (fuel + 1) blocks = d.divide live blocks
      rw [refine, if_pos hcount]
    · have hlt : blocks.count < (d.divide live blocks).count := by
        rcases hblocks with hzero | hcounted
        · omega
        · exact Nat.lt_of_le_of_ne hcounted.count_le_divide (Ne.symm hcount)
      have hfuel' : d.size < fuel + (d.divide live blocks).count := by omega
      obtain ⟨rounds, hrounds, hgrows, hends, hrefine⟩ := ih (.inr counted_divide) hfuel'
      refine ⟨rounds + 1, Nat.succ_lt_succ hrounds, ?_, hends, ?_⟩
      · intro round hround
        cases round with
        | zero => exact hlt
        | succ round => exact hgrows round (Nat.lt_of_succ_lt_succ hround)
      · rw [refine, if_neg hcount]
        exact hrefine

theorem of_acceptance_eq_iff (hp : p < d.size) (hq : q < d.size) :
    d.acceptance.of p = d.acceptance.of q ↔ d.isAccepting p = d.isAccepting q := by
  have hof {q : Nat} (hq : q < d.rows.size) :
      d.acceptance.of q = if d.isAccepting q then 1 else 0 := by
    simp [acceptance, Blocks.of, isAccepting, hq]
  rw [hof hp, hof hq]
  cases d.isAccepting p <;> cases d.isAccepting q <;> simp

/-- Dividing ends with the blocks. -/
theorem exists_rounds_blocks (d : Dfa) (live : Array Bool) : ∃ rounds ≤ d.size,
    (∀ round < rounds, ((d.divide live)^[round] d.acceptance).count <
      ((d.divide live)^[round + 1] d.acceptance).count) ∧
    ((d.divide live)^[rounds + 1] d.acceptance).count =
      ((d.divide live)^[rounds] d.acceptance).count ∧
    d.blocks live = (d.divide live)^[rounds + 1] d.acceptance := by
  have hfuel : d.size < d.size + 1 + d.acceptance.count := by omega
  have hrounds : d.acceptance.count = 0 ∨ d.Counted live d.acceptance := .inl rfl
  obtain ⟨rounds, hlt, hgrows, hends, hblocks⟩ := exists_rounds hrounds hfuel
  exact ⟨rounds, Nat.le_of_lt_succ hlt, hgrows, hends, hblocks⟩

/-- What every round keeps holds of the blocks. -/
theorem blocks_induction {motive : Blocks → Prop} (hstart : motive d.acceptance)
    (hround : ∀ blocks, motive blocks → motive (d.divide live blocks)) :
    motive (d.blocks live) := by
  obtain ⟨rounds, -, -, -, hblocks⟩ := exists_rounds_blocks d live
  rw [hblocks]
  generalize rounds + 1 = n
  clear hblocks
  induction n with
  | zero => exact hstart
  | succ n ih =>
    rw [Function.iterate_succ_apply']
    exact hround _ ih

section Pruned

variable (hd : d.Pruned live)

include hd

theorem Pruned.mem_of_isLive (hq : isLive live q = true) : q ∈ d.liveStates live :=
  mem_liveStates.2 ⟨hd.lt_size hq, hq⟩

/-- The last round divided blocks whose states look alike. -/
theorem Pruned.exists_previous : ∃ previous, d.blocks live = d.divide live previous ∧
    ∀ p ∈ d.liveStates live, ∀ q ∈ d.liveStates live,
      previous.of p = previous.of q → d.signature previous p = d.signature previous q := by
  obtain ⟨rounds, -, -, hends, hblocks⟩ := exists_rounds_blocks d live
  rw [Function.iterate_succ_apply'] at hends hblocks
  refine ⟨_, hblocks, ?_⟩
  cases rounds with
  | zero =>
    -- the blocks that the rounds begin with are not counted, and some state is live
    have hinitial := hd.mem_of_isLive hd.initial_live
    have hlt : _ < (d.divide live d.acceptance).count := counted_divide.of_lt d.initial hinitial
    rw [show (d.divide live d.acceptance).count = d.acceptance.count from hends] at hlt
    exact absurd hlt (Nat.not_lt_zero _)
  | succ rounds =>
    rw [Function.iterate_succ_apply'] at hends ⊢
    intro p hp q hq
    exact counted_divide.signature_eq hends hp hq

theorem Pruned.counted_blocks : d.Counted live (d.blocks live) := by
  obtain ⟨previous, hblocks, -⟩ := hd.exists_previous
  rw [hblocks]
  exact counted_divide

/-- A symbol leads from the states of one block to one block. -/
theorem Pruned.next_of_blocks (hp : isLive live p = true) (hq : isLive live q = true)
    (h : (d.blocks live).of p = (d.blocks live).of q) :
    (d.next p symbol).map (d.blocks live).of = (d.next q symbol).map (d.blocks live).of := by
  obtain ⟨previous, hblocks, hlast⟩ := hd.exists_previous
  have hmem {q : Nat} (hq : isLive live q = true) := hd.mem_of_isLive hq
  -- the blocks of the last two rounds are the same, under other numbers
  have hsame {p q : Nat} (hp : isLive live p = true) (hq : isLive live q = true) :
      (d.blocks live).of p = (d.blocks live).of q ↔ previous.of p = previous.of q := by
    rw [hblocks]
    refine ⟨of_eq_of_divide (hmem hp) (hmem hq), fun heq => ?_⟩
    exact (of_divide_eq_iff (hmem hp) (hmem hq)).2 (hlast p (hmem hp) q (hmem hq) heq)
  have htargets := (signature_eq_iff.1 (hlast p (hmem hp) q (hmem hq) ((hsame hp hq).1 h))).2
  have hsymbol := congrArg (fun targets => targets[symbol]?.join) htargets
  have hjoin (r : Nat) : ((d.targets r).map (·.map previous.of))[symbol]?.join =
      (d.next r symbol).map previous.of := by
    rw [List.getElem?_map, next]
    cases (d.targets r)[symbol]? <;> rfl
  rw [hjoin, hjoin] at hsymbol
  cases hs : d.next p symbol with
  | none =>
    cases ht : d.next q symbol with
    | none => rfl
    | some t => simp [hs, ht] at hsymbol
  | some s =>
    cases ht : d.next q symbol with
    | none => simp [hs, ht] at hsymbol
    | some t =>
      rw [hs, ht] at hsymbol
      exact congrArg some ((hsame (hd.next_live hs) (hd.next_live ht)).2 (Option.some.inj hsymbol))

/-! ### What the blocks are -/

/-- States of one block accept or reject alike. -/
theorem Pruned.isAccepting_eq_of_blocks (hp : isLive live p = true) (hq : isLive live q = true)
    (h : (d.blocks live).of p = (d.blocks live).of q) : d.isAccepting p = d.isAccepting q := by
  revert p q
  refine blocks_induction (motive := fun blocks => ∀ {p q}, isLive live p = true →
    isLive live q = true → blocks.of p = blocks.of q → d.isAccepting p = d.isAccepting q) ?_ ?_
  · intro p q hp hq h
    exact (of_acceptance_eq_iff (hd.lt_size hp) (hd.lt_size hq)).1 h
  · intro blocks ih p q hp hq h
    exact ih hp hq (of_eq_of_divide (hd.mem_of_isLive hp) (hd.mem_of_isLive hq) h)

/-- Two states are in one block if they accept the same words: a round separates them only where a
symbol leads to different blocks, and where one of them has no target the other accepts a word. -/
theorem Pruned.of_blocks_eq_of_wordsFrom
    (hlive : ∀ q, isLive live q = true → ∃ w, w ∈ d.wordsFrom q)
    (hp : isLive live p = true) (hq : isLive live q = true) (h : d.wordsFrom p = d.wordsFrom q) :
    (d.blocks live).of p = (d.blocks live).of q := by
  revert p q
  refine blocks_induction (motive := fun blocks => ∀ {p q}, isLive live p = true →
    isLive live q = true → d.wordsFrom p = d.wordsFrom q → blocks.of p = blocks.of q) ?_ ?_
  · intro p q hp hq h
    refine (of_acceptance_eq_iff (hd.lt_size hp) (hd.lt_size hq)).2 ?_
    rw [Bool.eq_iff_iff, ← nil_mem_wordsFrom, ← nil_mem_wordsFrom, h]
  · intro blocks ih p q hp hq h
    refine (of_divide_eq_iff (hd.mem_of_isLive hp) (hd.mem_of_isLive hq)).2
      (signature_eq_iff.2 ⟨ih hp hq h, ?_⟩)
    apply List.ext_getElem?
    intro symbol
    rw [List.getElem?_map, List.getElem?_map]
    rcases Nat.lt_or_ge symbol d.alphabet with hsymbol | hsymbol
    · rw [hd.getElem?_targets (hd.lt_size hp) hsymbol, hd.getElem?_targets (hd.lt_size hq) hsymbol]
      apply congrArg some
      have hnext {r : Nat} : ∀ t, d.next r symbol = some t → isLive live t = true :=
        fun t ht => hd.next_live ht
      have hrel := rel_next_of_wordsFrom_eq h (fun t ht => hlive t (hnext t ht))
        fun t ht => hlive t (hnext t ht)
      have hs := @hnext p
      have ht := @hnext q
      generalize d.next p symbol = s at hrel hs ⊢
      generalize d.next q symbol = t at hrel ht ⊢
      cases hrel with
      | none => rfl
      | some hsame => exact congrArg some (ih (hs _ rfl) (ht _ rfl) hsame)
    · rw [hd.getElem?_targets_eq_none (hd.lt_size hp) hsymbol,
        hd.getElem?_targets_eq_none (hd.lt_size hq) hsymbol]

/-- The states of one block accept the same words. -/
theorem Pruned.wordsFrom_eq_of_blocks (hp : isLive live p = true) (hq : isLive live q = true)
    (h : (d.blocks live).of p = (d.blocks live).of q) : d.wordsFrom p = d.wordsFrom q := by
  ext w
  induction w generalizing p q with
  | nil =>
    rw [nil_mem_wordsFrom, nil_mem_wordsFrom, hd.isAccepting_eq_of_blocks hp hq h]
  | cons symbol w ih =>
    rw [cons_mem_wordsFrom, cons_mem_wordsFrom]
    have hnext : (d.next p symbol).map (d.blocks live).of =
        (d.next q symbol).map (d.blocks live).of := hd.next_of_blocks hp hq h
    cases hs : d.next p symbol with
    | none =>
      rw [hs] at hnext
      cases ht : d.next q symbol with
      | none => simp
      | some t => simp [ht] at hnext
    | some s =>
      rw [hs] at hnext
      cases ht : d.next q symbol with
      | none => simp [ht] at hnext
      | some t =>
        have hst : (d.blocks live).of s = (d.blocks live).of t := by simpa [ht] using hnext
        simpa using ih (hd.next_live hs) (hd.next_live ht) hst

/-- The blocks are those of the live states from which the same words are accepted. -/
theorem Pruned.of_blocks_eq_iff (hp : isLive live p = true) (hq : isLive live q = true) :
    (d.blocks live).of p = (d.blocks live).of q ↔ d.wordsFrom p = d.wordsFrom q := by
  refine ⟨hd.wordsFrom_eq_of_blocks hp hq, fun h => ?_⟩
  rcases hd.productive with hlive | hinitial
  · exact hd.of_blocks_eq_of_wordsFrom hlive hp hq h
  · rw [hinitial p hp, hinitial q hq]

end Pruned

end Dfa
end CallChain
