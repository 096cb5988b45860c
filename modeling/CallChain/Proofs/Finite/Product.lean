import CallChain.Finite.Product
import CallChain.Proofs.Finite.Search
import Mathlib.Data.List.ProdSigma

/-!
# The words of intersections and complements

* `intersect_eq`: an intersection is the automaton of pairs of states.
* `mem_words_intersect`: it accepts what both automata accept.
* `mem_words_complement`: the complement accepts what the automaton rejects.
* `complemented_eq`: the complement, made one transition after the other.
-/

namespace CallChain.Dfa

variable {d e : Dfa} {p p' q q' symbol : Nat} {w : List Nat}

/-! ### Intersection -/

theorem stepPair_eq_some_iff : stepPair d e (p, q) symbol = some (p', q') ↔
    d.next p symbol = some p' ∧ e.next q symbol = some q' := by
  unfold stepPair
  cases d.next p symbol <;> cases e.next q symbol <;> simp

/-- A walk of pairs is a pair of runs. -/
theorem walk_stepPair (hd : d.WellFormed) :
    walk d.alphabet (stepPair d e) (p, q) w = some (p', q') ↔
    d.run p w = some p' ∧ e.run q w = some q' := by
  induction w generalizing p q with
  | nil => simp [walk, run]
  | cons symbol w ih =>
    simp only [walk, run, Option.bind_eq_some_iff]
    constructor
    · intro h
      split at h
      · obtain ⟨⟨s, t⟩, hstep, hw⟩ := Option.bind_eq_some_iff.1 h
        obtain ⟨hs, ht⟩ := stepPair_eq_some_iff.1 hstep
        obtain ⟨hsw, htw⟩ := ih.1 hw
        exact ⟨⟨s, hs, hsw⟩, t, ht, htw⟩
      · cases h
    · rintro ⟨⟨s, hs, hsw⟩, t, ht, htw⟩
      rw [if_pos (hd.symbol_lt hs), stepPair_eq_some_iff.2 ⟨hs, ht⟩]
      exact ih.2 ⟨hsw, htw⟩

theorem bounded_stepPair (hd : d.WellFormed) (he : e.WellFormed) :
    Bounded d.alphabet (stepPair d e) (d.size * e.size) (d.initial, e.initial) := by
  refine ⟨d.states ×ˢ e.states, ?_, ?_, ?_⟩
  · exact List.mem_product.2 ⟨List.mem_range.2 hd.initial_lt, List.mem_range.2 he.initial_lt⟩
  · rw [List.length_product]
    simp [states]
  · rintro ⟨p, q⟩ _ symbol _ ⟨p', q'⟩ hstep
    obtain ⟨hp, hq⟩ := stepPair_eq_some_iff.1 hstep
    exact List.mem_product.2 ⟨List.mem_range.2 (hd.next_lt hp), List.mem_range.2 (he.next_lt hq)⟩

theorem bothEndAt_eq (hp : p < d.size) (hq : q < e.size) :
    bothEndAt d e (p, q) = .ok (d.isAccepting p && e.isAccepting q) := by
  rw [bothEndAt, endsAt_eq hp, ok_bind]
  cases d.isAccepting p with
  | false => rfl
  | true => exact endsAt_eq hq

theorem enteredPair_eq (hd : d.WellFormed) (he : e.WellFormed) (h : d.alphabet = e.alphabet)
    (hp : p < d.size) (hq : q < e.size) (hsymbol : symbol < d.alphabet) :
    enteredPair d e (p, q) symbol = .ok ((stepPair d e (p, q) symbol).map fun pair =>
      (pair, .ok (d.isAccepting pair.1 && e.isAccepting pair.2))) := by
  rw [enteredPair, transition_eq hd hp hsymbol, ok_bind, transition_eq he hq (h ▸ hsymbol), ok_bind,
    stepPair]
  cases hleft : d.next p symbol with
  | none => rfl
  | some left =>
    cases hright : e.next q symbol with
    | none => rfl
    | some right =>
      dsimp only
      rw [bothEndAt_eq (hd.next_lt hleft) (he.next_lt hright)]
      rfl

/-- The intersection of automata over one alphabet is the automaton of pairs of states. -/
theorem intersect_eq (hd : d.WellFormed) (he : e.WellFormed) (h : d.alphabet = e.alphabet) :
    d.intersect e = .ok (ofSteps d.alphabet (stepPair d e)
      (fun pair => d.isAccepting pair.1 && e.isAccepting pair.2) (d.size * e.size)
      (d.initial, e.initial)) := by
  rw [intersect, if_neg (not_not.2 h), bothEndAt_eq hd.initial_lt he.initial_lt]
  refine searched_eq (fun pair => d.isAccepting pair.1 && e.isAccepting pair.2)
    (bounded_stepPair hd he) fun pair hpair symbol hsymbol => ?_
  obtain ⟨w, hw⟩ := (mem_stepOrder (bounded_stepPair hd he)).1 hpair
  obtain ⟨hp, hq⟩ := (walk_stepPair hd).1 hw
  exact enteredPair_eq hd he h (hd.run_lt hd.initial_lt hp) (he.run_lt he.initial_lt hq) hsymbol

/-- Automata over one alphabet have an intersection. -/
theorem exists_intersect (hd : d.WellFormed) (he : e.WellFormed) (h : d.alphabet = e.alphabet) :
    ∃ m, d.intersect e = .ok m :=
  ⟨_, intersect_eq hd he h⟩

theorem intersect_eq_ok {m : Dfa} (hd : d.WellFormed) (he : e.WellFormed)
    (hm : d.intersect e = .ok m) :
    m = ofSteps d.alphabet (stepPair d e)
      (fun pair => d.isAccepting pair.1 && e.isAccepting pair.2) (d.size * e.size)
      (d.initial, e.initial) := by
  by_cases h : d.alphabet = e.alphabet
  · rw [intersect_eq hd he h] at hm
    exact (Except.ok.inj hm).symm
  · rw [intersect, if_pos h] at hm
    cases hm

section Intersect

variable {m : Dfa} (hd : d.WellFormed) (he : e.WellFormed) (hm : d.intersect e = .ok m)

include hd he hm

theorem wellFormed_intersect : m.WellFormed := by
  rw [intersect_eq_ok hd he hm]
  exact wellFormed_ofSteps _ (bounded_stepPair hd he)

theorem alphabet_intersect : m.alphabet = d.alphabet := by
  rw [intersect_eq_ok hd he hm]
  rfl

/-- An intersection accepts what both automata accept. -/
theorem mem_words_intersect : w ∈ m.words ↔ w ∈ d.words ∧ w ∈ e.words := by
  have hbounded := bounded_stepPair hd he
  rw [intersect_eq_ok hd he hm]
  rw [mem_words_ofSteps _ hbounded, words_eq, words_eq, mem_wordsFrom, mem_wordsFrom]
  simp only [Prod.exists, walk_stepPair hd, Bool.and_eq_true]
  constructor
  · rintro ⟨s, t, ⟨hs, ht⟩, has, hat⟩
    exact ⟨⟨s, hs, has⟩, t, ht, hat⟩
  · rintro ⟨⟨s, hs, has⟩, t, ht, hat⟩
    exact ⟨s, t, ⟨hs, ht⟩, has, hat⟩

theorem accepts_intersect (w : List Nat) : m.accepts w = (d.accepts w && e.accepts w) := by
  rw [Bool.eq_iff_iff, Bool.and_eq_true]
  exact mem_words_intersect hd he hm

/-- Pairs that no word leads to are not made. -/
theorem exists_run_intersect (hq : q < m.size) : ∃ w, m.run m.initial w = some q := by
  rw [intersect_eq_ok hd he hm] at hq ⊢
  exact exists_run_ofSteps (bounded_stepPair hd he) hq

/-- A loop at the initial state is one in both automata. -/
theorem next_of_next_intersect (hnext : m.next m.initial symbol = some m.initial) :
    e.next e.initial symbol = some e.initial := by
  rw [intersect_eq_ok hd he hm] at hnext
  exact (stepPair_eq_some_iff.1 ((next_initial_ofSteps _).1 hnext).2).2

end Intersect

/-! ### Complement -/

theorem isAccepting_size : d.isAccepting d.size = false := by
  have hrow : d.rows[d.size]? = none := Array.getElem?_eq_none (Nat.le_refl d.rows.size)
  rw [isAccepting, hrow]
  rfl

theorem size_complement : d.complement.size = d.size + 1 := by
  simp [complement, size]

theorem rows_complement (hq : q < d.size + 1) :
    d.complement.rows[q]? = some
      ⟨!d.isAccepting q, ((if q < d.size then d.targets q else List.replicate d.alphabet none).map
        fun target => some (target.getD d.size))⟩ := by
  show ((d.rows.push (blankRow d.alphabet false)).map _)[q]? = _
  rw [Array.getElem?_map, Array.getElem?_push, isAccepting]
  rcases Nat.lt_or_ge q d.size with hlt | hge
  · have hrow : d.rows[q]? = some d.rows[q] := Array.getElem?_eq_getElem hlt
    have hne : q ≠ d.rows.size := Nat.ne_of_lt hlt
    rw [if_neg hne, if_pos hlt, targets_eq hlt, hrow]
    rfl
  · have hrow : d.rows[q]? = none := Array.getElem?_eq_none hge
    have hlast : q = d.rows.size := Nat.le_antisymm (Nat.le_of_lt_succ hq) hge
    rw [if_pos hlast, if_neg (Nat.not_lt.2 hge), hrow]
    rfl

theorem isAccepting_complement (hq : q < d.size + 1) :
    d.complement.isAccepting q = !d.isAccepting q := by
  rw [isAccepting, rows_complement hq]
  rfl

/-- A missing transition leads to the further state. -/
theorem next_complement (hd : d.WellFormed) (hq : q < d.size + 1) (hsymbol : symbol < d.alphabet) :
    d.complement.next q symbol = some ((d.next q symbol).getD d.size) := by
  rw [next, targets, rows_complement hq]
  rcases Nat.lt_or_ge q d.size with hlt | hge
  · simp [hlt, hd.getElem?_targets hlt hsymbol]
  · have hnone : d.next q symbol = none := by
      rw [next, targets_eq_nil hge]
      rfl
    simp [Nat.not_lt.2 hge, hsymbol, hnone]

theorem wellFormed_complement (hd : d.WellFormed) : d.complement.WellFormed where
  initial_lt := by
    rw [size_complement]
    exact Nat.lt_succ_of_lt hd.initial_lt
  length_targets q hq := by
    rw [size_complement] at hq
    rw [targets, rows_complement hq]
    split
    · next hlt => simp [hd.length_targets q hlt, complement]
    · simp [complement]
  next_lt := by
    intro q symbol t ht
    have hq := lt_size_of_next ht
    rw [next_eq_some_iff, targets] at ht
    rw [size_complement] at hq ⊢
    rw [rows_complement hq] at ht
    simp only [Option.map_some, Option.getD_some, List.getElem?_map, Option.map_eq_some_iff,
      Option.some.injEq] at ht
    obtain ⟨target, htarget, rfl⟩ := ht
    cases target with
    | none => exact Nat.lt_succ_self _
    | some t =>
      split at htarget
      · exact Nat.lt_succ_of_lt (hd.next_lt (next_eq_some_iff.2 htarget))
      · simp [List.getElem?_replicate] at htarget

theorem run_complement (hd : d.WellFormed) (hq : q < d.size + 1) (hw : ∀ s ∈ w, s < d.alphabet) :
    d.complement.run q w = some ((d.run q w).getD d.size) := by
  induction w generalizing q with
  | nil => rfl
  | cons symbol w ih =>
    have hsymbol : symbol < d.alphabet := hw symbol (by simp)
    have hw' : ∀ s ∈ w, s < d.alphabet := fun s hs => hw s (by simp [hs])
    rw [run, next_complement hd hq hsymbol, Option.bind_some, run]
    cases ht : d.next q symbol with
    | none =>
      have hsink : d.run d.size w = none ∨ d.run d.size w = some d.size := by
        cases w with
        | nil => exact .inr rfl
        | cons s w =>
          have : d.next d.size s = none := by
            rw [next, targets_eq_nil (Nat.le_refl _)]
            rfl
          exact .inl (by rw [run, this]; rfl)
      rw [Option.getD_none, ih (Nat.lt_succ_self _) hw']
      rcases hsink with hsink | hsink <;> simp [hsink]
    | some t =>
      exact ih (Nat.lt_succ_of_lt (hd.next_lt ht)) hw'

/-- The complement accepts the words over the alphabet that the automaton rejects. -/
theorem mem_words_complement (hd : d.WellFormed) :
    w ∈ d.complement.words ↔ (∀ s ∈ w, s < d.alphabet) ∧ w ∉ d.words := by
  have hinit : d.initial < d.size + 1 := Nat.lt_succ_of_lt hd.initial_lt
  have hiff (hw : ∀ s ∈ w, s < d.alphabet) : w ∈ d.complement.words ↔ w ∉ d.words := by
    rw [words_eq, words_eq, mem_wordsFrom, mem_wordsFrom]
    show (∃ t, d.complement.run d.initial w = some t ∧ _) ↔ _
    rw [run_complement hd hinit hw]
    cases ht : d.run d.initial w with
    | none => simp [isAccepting_complement (Nat.lt_succ_self d.size), isAccepting_size]
    | some t =>
      have hlt : t < d.size + 1 := Nat.lt_succ_of_lt (hd.run_lt hd.initial_lt ht)
      simp [isAccepting_complement hlt]
  constructor
  · intro h
    have hw := (wellFormed_complement hd).lt_alphabet_of_mem h
    exact ⟨hw, (hiff hw).1 h⟩
  · rintro ⟨hw, h⟩
    exact (hiff hw).2 h

theorem accepts_complement (hd : d.WellFormed) (hw : ∀ s ∈ w, s < d.alphabet) :
    d.complement.accepts w = !d.accepts w := by
  rw [Bool.eq_iff_iff, Bool.not_eq_true', ← Bool.not_eq_true]
  exact (mem_words_complement hd).trans (and_iff_right hw)

/-! ### Making the complement -/

section Completing

theorem targets_flipped : d.flipped.targets q = d.targets q := by
  unfold targets flipped
  rw [Array.getElem?_map]
  cases d.rows[q]? <;> rfl

theorem next_flipped : d.flipped.next q symbol = d.next q symbol := by
  rw [next, targets_flipped, next]

theorem size_flipped : d.flipped.size = d.size := by
  simp [flipped, size]

theorem isAccepting_flipped (hq : q < d.size) : d.flipped.isAccepting q = !d.isAccepting q := by
  unfold isAccepting flipped
  rw [Array.getElem?_map, Array.getElem?_eq_getElem hq]
  rfl

theorem WellFormed.flipped (hd : d.WellFormed) : d.flipped.WellFormed where
  initial_lt := by
    rw [size_flipped]
    exact hd.initial_lt
  length_targets p hp := by
    rw [size_flipped] at hp
    rw [targets_flipped]
    exact hd.length_targets p hp
  next_lt := by
    intro p s t ht
    rw [next_flipped] at ht
    rw [size_flipped]
    exact hd.next_lt ht

/-- Completing a state touches its own transitions. -/
theorem exists_completed {sink : Nat} (hd : d.WellFormed) (hsink : sink < d.size)
    (hq : q < d.size) : ∃ e, completed sink d q = .ok e ∧
      Rewired (fun p s => p = q ∧ s < d.alphabet)
        (fun _ _ target => some (target.getD sink)) d e := by
  have hlt (target : Option Nat) (htarget : ∀ t ∈ target, t < d.size) :
      ∀ t ∈ some (target.getD sink), t < d.size := by
    intro t ht
    cases ht
    cases target with
    | none => exact hsink
    | some t => exact htarget t rfl
  obtain ⟨e, he, hrewired⟩ := exists_foldlM_retarget (fun target => some (target.getD sink))
    d.symbols (fun _ => rfl) hlt hd hq fun s hs => List.mem_range.1 hs
  exact ⟨e, he, hrewired.congr fun p s => and_congr_right fun _ => List.mem_range⟩

/-- The complement, made one transition after the other. -/
theorem complemented_eq (hd : d.WellFormed) : d.complemented = .ok d.complement := by
  have hd' := hd.addState false
  obtain ⟨e, he, hrewired⟩ := exists_foldlM_rewired (fun _ _ target => some (target.getD d.size))
    (completed d.size) (fun q p s => p = q ∧ s < d.alphabet) (d.addState false).2.states
    (fun _ _ _ => rfl) hd' fun d'' hd'' halphabet hsize q hq => by
      rw [size_addState] at hsize
      have hq : q < d.size + 1 := by simpa [states] using hq
      have hsink : d.size < d''.size := by omega
      obtain ⟨e, he, hrewired⟩ := exists_completed hd'' hsink (hsize ▸ hq)
      exact ⟨e, he, hrewired.congr fun p s => by rw [halphabet]; rfl⟩
  have hsize : e.size = d.size + 1 := hrewired.size_eq.trans (size_addState false)
  have hsame : e.flipped = d.complement := by
    refine hrewired.toWellFormed.flipped.ext (wellFormed_complement hd) hrewired.alphabet_eq ?_
      hrewired.initial_eq (fun q hq => ?_) fun q hq s hs => ?_
    · rw [size_flipped, size_complement, hsize]
    · rw [size_flipped, hsize] at hq
      rw [isAccepting_flipped (hsize ▸ hq), hrewired.isAccepting_eq, isAccepting_complement hq,
        isAccepting_addState]
      split
      next hlast => rw [hlast, isAccepting_size]
      next => rfl
    · rw [size_flipped, hsize] at hq
      have hs : s < d.alphabet := hrewired.alphabet_eq ▸ hs
      rw [next_flipped, next_complement hd hq hs,
        hrewired.next_touched q s ⟨q, by simpa [states] using hq, rfl, hs⟩, next_addState]
  rw [complemented]
  show (List.foldlM (completed d.size) (d.addState false).2 (d.addState false).2.states >>= _) = _
  rw [he, ok_bind, hsame]
  rfl

end Completing

/-! ### Automata of one state -/

theorem next_single (alphabet : Nat) (accepting : Bool) :
    (Dfa.mk alphabet #[blankRow alphabet accepting] 0).next q symbol = none := by
  rw [Option.eq_none_iff_forall_ne_some]
  intro t ht
  rw [next_eq_some_iff, targets] at ht
  cases q with
  | zero => simp [blankRow, List.getElem?_replicate] at ht
  | succ q => simp at ht

/-- One state without transitions. -/
theorem wellFormed_single (alphabet : Nat) (accepting : Bool) :
    (Dfa.mk alphabet #[blankRow alphabet accepting] 0).WellFormed where
  initial_lt := Nat.zero_lt_one
  length_targets q hq := by
    have hq : q = 0 := Nat.lt_one_iff.1 hq
    subst hq
    exact List.length_replicate
  next_lt := by
    intro q symbol t ht
    rw [next_single] at ht
    cases ht

theorem next_emptyWord (alphabet : Nat) : (emptyWord alphabet).next q symbol = none :=
  next_single alphabet true

theorem wellFormed_emptyWord (alphabet : Nat) : (emptyWord alphabet).WellFormed :=
  wellFormed_single alphabet true

theorem mem_words_emptyWord (alphabet : Nat) : w ∈ (emptyWord alphabet).words ↔ w = [] := by
  cases w with
  | nil => simp [words_eq, nil_mem_wordsFrom, emptyWord, isAccepting, blankRow]
  | cons symbol w => simp [words_eq, cons_mem_wordsFrom, next_emptyWord]

end CallChain.Dfa
