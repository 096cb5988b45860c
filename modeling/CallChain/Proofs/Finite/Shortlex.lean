import CallChain.Proofs.Breadth
import CallChain.Proofs.Finite.Checked
import Mathlib.Data.List.Shortlex

/-!
# Numbers of states by least words

Words are compared by their length first and symbol by symbol where that is the same. The least word
that leads to a state says when a breadth-first search that takes symbols in ascending order meets
it: by a shortest way, and by the first one of these. So the states that such a search numbers are
numbered as their least words are ordered (`BreadthFirst`), whatever the search keeps about them.

* `breadthFirst_ofSteps`: the automaton of a step function is numbered in this way.
* `Nfa.determinized_exact`: what determinizing makes of a fragment.
-/

namespace CallChain

/-! ### Least words -/

/-- A word with a property, while no word before it has it. -/
structure LeastWord (P : List Nat → Prop) (w : List Nat) : Prop where
  holds : P w
  least : ∀ v, P v → ¬ List.Shortlex (· < ·) v w

section LeastWord

variable {P : List Nat → Prop} {u v w : List Nat} {a b : Nat}

theorem shortlex_of_not_of (h : ¬ List.Shortlex (· < ·) u w) (huv : List.Shortlex (· < ·) u v) :
    List.Shortlex (· < ·) w v := by
  rcases trichotomous_of (List.Shortlex (· < ·)) w v with hwv | rfl | hvw
  · exact hwv
  · exact absurd huv h
  · rcases trichotomous_of (List.Shortlex (· < ·)) w u with hwu | rfl | huw
    · exact absurd hwu ((List.Shortlex.wf wellFounded_lt).asymmetric₃ _ _ _ huv hvw)
    · exact huv
    · exact absurd huw h

/-- Words stay in order when each gets a further symbol. -/
theorem shortlex_snoc (h : List.Shortlex (· < ·) u v) :
    List.Shortlex (· < ·) (u ++ [a]) (v ++ [b]) := by
  rcases List.shortlex_def.1 h with hlt | ⟨hlength, hlex⟩
  · exact .of_length_lt (by simpa using hlt)
  · refine .of_lex (by simpa using hlength) ?_
    induction hlex with
    | nil => cases hlength
    | cons _ ih =>
      have hlength := Nat.succ.inj hlength
      exact .cons (ih (.of_lex hlength ‹_›) hlength)
    | rel hlt => exact .rel hlt

theorem shortlex_snoc_of_lt (h : a < b) : List.Shortlex (· < ·) (u ++ [a]) (u ++ [b]) :=
  List.Shortlex.append_left ((List.shortlex_singleton_iff a b).2 h) u

variable (P) in
theorem exists_leastWord (h : P w) : ∃ u, LeastWord P u := by
  obtain ⟨u, hu, hleast⟩ := (List.Shortlex.wf wellFounded_lt).has_min {w | P w} ⟨w, h⟩
  exact ⟨u, hu, hleast⟩

theorem LeastWord.unique (hu : LeastWord P u) (hv : LeastWord P v) : u = v := by
  rcases trichotomous_of (List.Shortlex (· < ·)) u v with huv | huv | hvu
  · exact absurd huv (hv.least u hu.holds)
  · exact huv
  · exact absurd hvu (hu.least v hv.holds)

end LeastWord

namespace Dfa

/-! ### Searches by symbols -/

section Walk

variable {σ : Type} {alphabet : Nat} {step : σ → Nat → Option σ} {start s t : σ} {u v w : List Nat}
  {a b : Nat}

variable (alphabet step start) in
/-- The least word to the first element comes before the one to the second. -/
def Precedes (s t : σ) : Prop :=
  ∃ u v, LeastWord (walk alphabet step start · = some s) u ∧
    LeastWord (walk alphabet step start · = some t) v ∧ List.Shortlex (· < ·) u v

theorem walk_snoc (hu : walk alphabet step start u = some s) (ha : a < alphabet)
    (hst : step s a = some t) : walk alphabet step start (u ++ [a]) = some t := by
  rw [walk_append, hu, Option.bind_some, walk_singleton ha, hst]

theorem exists_of_walk_snoc (h : walk alphabet step start (u ++ [a]) = some t) :
    ∃ s, walk alphabet step start u = some s ∧ a < alphabet ∧ step s a = some t := by
  rw [walk_append] at h
  obtain ⟨s, hs, ht⟩ := Option.bind_eq_some_iff.1 h
  simp only [walk] at ht
  split at ht
  · next hlt => exact ⟨s, hs, hlt, by simpa using ht⟩
  · cases ht

/-- What a word leads to comes before what has a greater least word. -/
theorem precedes_of_walk (hu : walk alphabet step start u = some s)
    (hv : LeastWord (walk alphabet step start · = some t) v) (huv : List.Shortlex (· < ·) u v) :
    Precedes alphabet step start s t := by
  obtain ⟨w, hw⟩ := exists_leastWord (walk alphabet step start · = some s) hu
  exact ⟨w, v, hw, hv, shortlex_of_not_of (hw.least u hu) huv⟩

/-- A word without its last symbol is least if the word is. -/
theorem leastWord_init (h : LeastWord (walk alphabet step start · = some t) (u ++ [a]))
    (hs : walk alphabet step start u = some s) (ha : a < alphabet) (hst : step s a = some t) :
    LeastWord (walk alphabet step start · = some s) u :=
  ⟨hs, fun v hv hlt => h.least (v ++ [a]) (walk_snoc hv ha hst) (shortlex_snoc hlt)⟩

theorem leastWord_start : LeastWord (walk alphabet step start · = some start) [] :=
  ⟨rfl, fun _ _ => List.not_shortlex_nil_right⟩

theorem exists_leastWord_snoc (hs : ∃ w, walk alphabet step start w = some s) (hne : s ≠ start) :
    ∃ u a, LeastWord (walk alphabet step start · = some s) (u ++ [a]) := by
  obtain ⟨w, hw⟩ := hs
  obtain ⟨v, hv⟩ := exists_leastWord (walk alphabet step start · = some s) hw
  cases v using List.reverseRecOn with
  | nil => exact absurd (Option.some.inj hv.holds).symm hne
  | append_singleton u a => exact ⟨u, a, hv⟩

/-- Where an element is first among those that a state leads to, what stands in front of it is led
to by smaller symbols than it is. -/
theorem exists_lt_of_successors {pre post : List σ}
    (h : (List.range alphabet).filterMap (step s) = pre ++ t :: post) (ht : t ∉ pre) {t' : σ}
    (ht' : t' ∈ pre) (hb : b < alphabet) (hst : step s b = some t) :
    ∃ a < b, step s a = some t' := by
  obtain ⟨front, back, hrange, rfl, hback⟩ := List.filterMap_eq_append_iff.1 h
  obtain ⟨a, ha, hat⟩ := List.mem_filterMap.1 ht'
  refine ⟨a, ?_, hat⟩
  have hsorted : (front ++ back).Pairwise (· < ·) := hrange ▸ List.pairwise_lt_range
  have hmem : b ∈ front ++ back := hrange ▸ List.mem_range.2 hb
  rcases List.mem_append.1 hmem with hfront | hback
  · exact absurd (List.mem_filterMap.2 ⟨b, hfront, hst⟩) ht
  · exact (List.pairwise_append.1 hsorted).2.2 a ha b hback

variable (alphabet step start) in
/-- Least words grow along the steps of a search that takes symbols in ascending order. -/
theorem searchOrder_precedes :
    SearchOrder (fun s => (List.range alphabet).filterMap (step s)) start
      (Precedes alphabet step start) := by
  refine ⟨fun t ht hne => ?_, fun t ht hne => ?_⟩
  · obtain ⟨u, a, hleast⟩ := exists_leastWord_snoc (reached_iff_exists_walk.1 ht) hne
    exact ⟨[], u ++ [a], leastWord_start, hleast, .of_length_lt (by simp)⟩
  · obtain ⟨u, b, hleast⟩ := exists_leastWord_snoc (reached_iff_exists_walk.1 ht) hne
    obtain ⟨s, hs, hb, hst⟩ := exists_of_walk_snoc hleast.holds
    have hinit := leastWord_init hleast hs hb hst
    refine ⟨s, reached_iff_exists_walk.2 ⟨u, hs⟩,
      List.mem_filterMap.2 ⟨b, List.mem_range.2 hb, hst⟩, ?_, ?_⟩
    · rintro r ⟨v, v', hv, hv', hlt⟩ t' ht'
      obtain ⟨a, ha, hrt⟩ := List.mem_filterMap.1 ht'
      rw [hv'.unique hinit] at hlt
      exact precedes_of_walk (walk_snoc hv.holds (List.mem_range.1 ha) hrt) hleast
        (shortlex_snoc hlt)
    · intro pre post hpre ht t' ht'
      obtain ⟨a, ha, hst'⟩ := exists_lt_of_successors hpre ht ht' hb hst
      exact precedes_of_walk (walk_snoc hs (Nat.lt_trans ha hb) hst') hleast
        (shortlex_snoc_of_lt ha)

end Walk

/-! ### Numbered automata -/

/-- The states are numbered as a breadth-first search from the initial state meets them that takes
symbols in ascending order: of two states the one with the lower number has the lower least word. -/
def BreadthFirst (d : Dfa) : Prop :=
  ∀ p q, p < q → q < d.size → ∃ u v, LeastWord (d.run d.initial · = some p) u ∧
    LeastWord (d.run d.initial · = some q) v ∧ List.Shortlex (· < ·) u v

section OfSteps

variable {σ : Type} [BEq σ] [LawfulBEq σ] {alphabet bound : Nat} {step : σ → Nat → Option σ}
  {accepting : σ → Bool} {start s : σ} {w : List Nat}

/-- A word leads to the state of an element if walks with it lead to the element. -/
theorem run_initial_ofSteps_iff (h : Bounded alphabet step bound start) :
    (ofSteps alphabet step accepting bound start).run 0 w =
      some ((stepOrder alphabet step bound start).idxOf s) ↔
      walk alphabet step start w = some s := by
  have hrun : (ofSteps alphabet step accepting bound start).run _ w = _ :=
    run_ofSteps accepting h (start_mem_stepOrder alphabet step bound start)
  rw [idxOf_start] at hrun
  rw [hrun, Option.map_eq_some_iff]
  constructor
  · rintro ⟨t, ht, heq⟩
    rw [ht, (List.idxOf_inj ((mem_stepOrder h).2 ⟨w, ht⟩)).1 heq]
  · exact fun hw => ⟨s, hw, rfl⟩

/-- The automaton of a step function is numbered breadth first. -/
theorem breadthFirst_ofSteps (h : Bounded alphabet step bound start) :
    (ofSteps alphabet step accepting bound start).BreadthFirst := by
  intro p q hpq hq
  obtain ⟨s, hs, rfl⟩ := exists_idxOf_eq (Nat.lt_trans hpq hq)
  obtain ⟨t, ht, rfl⟩ := exists_idxOf_eq hq
  have hordered : (stepOrder alphabet step bound start).Pairwise (Precedes alphabet step start) :=
    pairwise_discover (searchOrder_precedes alphabet step start)
  have hbefore := List.pairwise_iff_getElem.1 hordered _ _ (List.idxOf_lt_length_of_mem hs)
    (List.idxOf_lt_length_of_mem ht) hpq
  rw [List.getElem_idxOf, List.getElem_idxOf] at hbefore
  show ∃ u v, LeastWord (fun w => (ofSteps alphabet step accepting bound start).run 0 w = _) u ∧
    LeastWord (fun w => (ofSteps alphabet step accepting bound start).run 0 w = _) v ∧ _
  simp only [run_initial_ofSteps_iff h]
  exact hbefore

end OfSteps

end Dfa

/-! ### Determinized fragments -/

namespace Nfa

variable {n : Nfa} {f : Fragment} {seeds nodes : List Nat} {p q : Nat} {w : List Nat}

/-- The search behind silent steps ends. -/
theorem exists_ends_silentSteps (hn : n.WellFormed) (hseeds : ∀ p ∈ seeds, p < n.size) :
    ∃ found, Ends n.silentSteps [] (fresh [] seeds) found ∧
      ∀ q, q ∈ n.closure seeds ↔ q ∈ found := by
  have hconfined := hn.confined hseeds
  have hbound : (List.range n.size).length ≤ n.size + seeds.length := by
    rw [List.length_range]
    exact Nat.le_add_right _ _
  refine ⟨_, hconfined.ends_discover hbound, fun q => ?_⟩
  rw [mem_closure hn hseeds, mem_discover_iff hconfined hbound, reached_silentSteps_iff]

variable (n f) in
/-- The sets that stand for the states of a determinized fragment, by number. -/
def sets : List (List Nat) :=
  Dfa.stepOrder n.alphabet n.stepSet (Nat.pow 2 n.size) (n.closure [f.entry])

variable (n f) in
/-- The search for the sets ends. -/
theorem ends_sets : Ends (fun nodes => (List.range n.alphabet).filterMap (n.stepSet nodes)) []
    [n.closure [f.entry]] (n.sets f) := by
  have hfinite : Dfa.Bounded n.alphabet n.stepSet (Nat.pow 2 n.size) (n.closure [f.entry]) :=
    bounded_stepSet
  obtain ⟨stock, hconfined, hbound⟩ := hfinite.exists_confined
  have hends := hconfined.ends_discover hbound
  rwa [show fresh [] [n.closure [f.entry]] = [n.closure [f.entry]] by simp [fresh]] at hends

/-- The set of a state holds what paths with a word that leads to the state lead to. -/
theorem mem_sets_iff (hn : n.WellFormed) (hentry : f.entry < n.size)
    (hq : (n.sets f)[q]? = some nodes) (hw : (n.determinize f).run 0 w = some q) :
    p ∈ nodes ↔ n.Path p f.entry w := by
  obtain ⟨hlt, rfl⟩ := List.getElem?_eq_some_iff.1 hq
  have hidx : (n.sets f).idxOf (n.sets f)[q] = q := nodup_discover.idxOf_getElem q hlt
  rw [← hidx] at hw
  have hwalk := (Dfa.run_initial_ofSteps_iff bounded_stepSet).1 hw
  rw [← exists_walk_closure_iff hn hentry, hwalk]
  simp

/-- Determinizing a fragment ends: the search behind silent steps from any nodes does, and so does
the search for sets of nodes. The set of a state holds the nodes that paths from the entry lead to
with the words that lead to the state. A word is accepted if it is the one of a path from the entry
to the exit. Every state is reached from the first, and the numbers of the states are those of a
breadth-first search. -/
theorem determinized_exact (hn : n.WellFormed) (hentry : f.entry < n.size) :
    (∀ seeds, (∀ p ∈ seeds, p < n.size) → ∃ found,
      Ends n.silentSteps [] (fresh [] seeds) found ∧ ∀ q, q ∈ n.closure seeds ↔ q ∈ found) ∧
    ∃ d sets, n.determinized f = .ok d ∧
      Ends (fun nodes => (List.range n.alphabet).filterMap (n.stepSet nodes)) []
        [n.closure [f.entry]] sets ∧
      d.size = sets.length ∧
      (∀ q nodes w, sets[q]? = some nodes → d.run d.initial w = some q →
        ∀ p, p ∈ nodes ↔ n.Path p f.entry w) ∧
      (∀ w, d.accepts w = true ↔ n.Path f.exit f.entry w) ∧
      d.initial = 0 ∧ (∀ q < d.size, ∃ w, d.run 0 w = some q) ∧ d.BreadthFirst := by
  refine ⟨fun seeds => exists_ends_silentSteps hn, n.determinize f, n.sets f,
    determinized_eq hn hentry, ends_sets n f, Dfa.size_ofSteps _, ?_, ?_, rfl, ?_, ?_⟩
  · exact fun q nodes w hq hw p => mem_sets_iff hn hentry hq hw
  · intro w
    have hwords : w ∈ (n.determinize f).words ↔ w ∈ n.words f := by
      rw [words_determinize hn hentry]
    exact hwords
  · exact fun q hq => Dfa.exists_run_ofSteps bounded_stepSet hq
  · exact Dfa.breadthFirst_ofSteps bounded_stepSet

/-- A silent cycle between the nodes 0 and 1, ranges of symbols that overlap and lead to one node,
and a node that stands by itself. -/
def silentCycle : Nfa where
  alphabet := 3
  nodes := #[⟨[(⟨0, 2⟩, 2), (⟨1, 3⟩, 2)], [1]⟩, ⟨[(⟨1, 2⟩, 3)], [0, 0]⟩, ⟨[(⟨0, 1⟩, 0)], [3]⟩,
    ⟨[], []⟩, ⟨[(⟨0, 3⟩, 4)], [2]⟩]

theorem determinized_exact_silentCycle : silentCycle.WellFormed ∧
    ∃ d, silentCycle.determinized ⟨0, 3⟩ = .ok d ∧
      (∀ w, d.accepts w = true ↔ silentCycle.Path 3 0 w) ∧ d.BreadthFirst ∧
      ∀ q < d.size, ∃ w, d.run 0 w = some q := by
  have hwf : silentCycle.WellFormed := wellFormed_iff.2 (by decide +kernel)
  obtain ⟨-, d, sets, hd, -, -, -, haccepts, -, hreached, hnumbered⟩ :=
    determinized_exact (f := ⟨0, 3⟩) hwf (by decide)
  exact ⟨hwf, d, hd, haccepts, hnumbered, hreached⟩

end Nfa

end CallChain
