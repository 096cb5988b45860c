import CallChain.Finite.Determinize
import CallChain.Proofs.Finite.Path
import CallChain.Proofs.Finite.Steps
import Mathlib.Data.List.Sublists

/-!
# The words of a determinized fragment

The set of nodes that `Nfa.determinize` keeps after a word holds exactly the nodes that paths with
that word lead to, as long as all steps lead to nodes (`Nfa.WellFormed`). Sets are sorted lists of
nodes, so there are at most as many of them as `determinize` allows states.

* `mem_closure`: what silent steps reach.
* `words_determinize`: the words stay the same.
-/

namespace CallChain.Nfa

variable {n : Nfa} {f : Fragment} {nodes seeds : List Nat} {goal p q s : Nat} {w : List Nat}

variable (n) in
/-- All steps lead to nodes, on symbols of the alphabet. -/
def WellFormed : Prop := n.Region {q | q < n.size}

/-! ### Silent steps -/

/-- Paths without symbols are made of silent steps. -/
theorem reached_silentSteps_iff :
    Reached n.silentSteps seeds q ↔ ∃ p ∈ seeds, n.Path q p [] := by
  constructor
  · intro h
    induction h with
    | seed hx => exact ⟨_, hx, .done⟩
    | step _ hy ih =>
      obtain ⟨p, hp, hpath⟩ := ih
      exact ⟨p, hp, hpath.trans (.silent hy .done)⟩
  · rintro ⟨p, hp, hpath⟩
    have hreached : Reached n.silentSteps seeds p := .seed hp
    clear hp
    generalize hw : ([] : List Nat) = w at hpath
    induction hpath with
    | done => exact hreached
    | silent hstep _ ih => exact ih (.step hreached hstep) hw
    | symbol => cases hw

/-- Silent steps from nodes stay among the nodes. -/
theorem WellFormed.confined (hn : n.WellFormed) (hseeds : ∀ p ∈ seeds, p < n.size) :
    Confined n.silentSteps seeds (List.range n.size) := by
  refine ⟨fun p hp => List.mem_range.2 (hseeds p hp), ?_⟩
  intro p hp q hq
  exact List.mem_range.2 (hn.silent_mem p (List.mem_range.1 hp) q hq)

theorem lt_size_of_mem_closure (hq : q ∈ n.closure seeds) : q < n.size :=
  List.mem_range.1 (List.mem_of_mem_filter hq)

theorem mem_closure (hn : n.WellFormed) (hseeds : ∀ p ∈ seeds, p < n.size) :
    q ∈ n.closure seeds ↔ ∃ p ∈ seeds, n.Path q p [] := by
  have hconfined := hn.confined hseeds
  have hbound : (List.range n.size).length ≤ n.size + seeds.length := by
    rw [List.length_range]
    exact Nat.le_add_right _ _
  rw [closure, List.mem_filter, List.contains_iff_mem, mem_discover_iff hconfined hbound,
    ← reached_silentSteps_iff]
  exact ⟨And.right, fun h => ⟨hconfined.mem_of_reached h, h⟩⟩

variable (n) in
/-- No silent step leaves a set of nodes. -/
structure Closed (nodes : List Nat) : Prop where
  lt_size : ∀ p ∈ nodes, p < n.size
  silent_mem : ∀ p ∈ nodes, ∀ q ∈ n.silentSteps p, q ∈ nodes

theorem closed_closure (hn : n.WellFormed) (hseeds : ∀ p ∈ seeds, p < n.size) :
    n.Closed (n.closure seeds) := by
  refine ⟨fun p hp => lt_size_of_mem_closure hp, fun p hp q hq => ?_⟩
  obtain ⟨o, ho, hpath⟩ := (mem_closure hn hseeds).1 hp
  exact (mem_closure hn hseeds).2 ⟨o, ho, hpath.trans (.silent hq .done)⟩

/-! ### Steps on symbols -/

theorem mem_move : q ∈ n.move nodes s ↔
    ∃ p ∈ nodes, ∃ r : SymbolRange, (r, q) ∈ n.edgesOf p ∧ r.contains s = true := by
  simp only [move, edgesOf, List.mem_flatMap, List.mem_filterMap, Prod.exists,
    Option.ite_none_right_eq_some, Option.some.injEq]
  constructor
  · rintro ⟨p, hp, r, q', hedge, hs, rfl⟩
    exact ⟨p, hp, r, hedge, hs⟩
  · rintro ⟨p, hp, r, hedge, hs⟩
    exact ⟨p, hp, r, q, hedge, hs, rfl⟩

/-- The first symbol of a path from a closed set is taken from the set. -/
theorem exists_path_cons_iff (h : n.Closed nodes) :
    (∃ p ∈ nodes, n.Path goal p (s :: w)) ↔ ∃ q ∈ n.move nodes s, n.Path goal q w := by
  constructor
  · rintro ⟨p, hp, hpath⟩
    generalize hw : s :: w = v at hpath
    induction hpath with
    | done => cases hw
    | silent hstep _ ih => exact ih (h.silent_mem _ hp _ hstep) hw
    | symbol hstep hs rest _ =>
      cases hw
      exact ⟨_, mem_move.2 ⟨_, hp, _, hstep, hs⟩, rest⟩
  · rintro ⟨q, hq, hpath⟩
    obtain ⟨p, hp, r, hedge, hs⟩ := mem_move.1 hq
    exact ⟨p, hp, .symbol hedge hs hpath⟩

theorem lt_size_of_mem_move (hn : n.WellFormed) (h : ∀ p ∈ nodes, p < n.size) :
    ∀ q ∈ n.move nodes s, q < n.size := by
  intro q hq
  obtain ⟨p, hp, r, hedge, -⟩ := mem_move.1 hq
  exact hn.edge_mem p (h p hp) r q hedge

theorem stepSet_eq : n.stepSet nodes s =
    if n.move nodes s = [] then none else some (n.closure (n.move nodes s)) := by
  simp [stepSet]

/-- A set after a word holds what paths with that word lead to. -/
theorem exists_walk_stepSet_iff (hn : n.WellFormed) (h : n.Closed nodes) :
    (∃ after, Dfa.walk n.alphabet n.stepSet nodes w = some after ∧ goal ∈ after) ↔
      ∃ p ∈ nodes, n.Path goal p w := by
  induction w generalizing nodes with
  | nil =>
    simp only [Dfa.walk, Option.some.injEq, exists_eq_left']
    refine ⟨fun hgoal => ⟨goal, hgoal, .done⟩, ?_⟩
    rintro ⟨p, hp, hpath⟩
    generalize hw : ([] : List Nat) = w at hpath
    induction hpath with
    | done => exact hp
    | silent hstep _ ih => exact ih (h.silent_mem _ hp _ hstep) hw
    | symbol => cases hw
  | cons s w ih =>
    have hlt := lt_size_of_mem_move (s := s) hn h.lt_size
    rw [exists_path_cons_iff h, Dfa.walk]
    have hsymbol {q : Nat} (hq : q ∈ n.move nodes s) : s < n.alphabet := by
      obtain ⟨p, hp, r, hedge, hs⟩ := mem_move.1 hq
      simp only [SymbolRange.contains, Bool.and_eq_true, decide_eq_true_eq] at hs
      exact Nat.lt_of_lt_of_le hs.2 (hn.stop_le p (h.lt_size p hp) r q hedge)
    by_cases hmove : n.move nodes s = []
    · simp [stepSet_eq, hmove]
    · obtain ⟨q, hq⟩ := List.exists_mem_of_ne_nil _ hmove
      rw [if_pos (hsymbol hq), stepSet_eq, if_neg hmove, Option.bind_some,
        ih (closed_closure hn hlt)]
      constructor
      · rintro ⟨p, hp, hpath⟩
        obtain ⟨o, ho, hsilent⟩ := (mem_closure hn hlt).1 hp
        exact ⟨o, ho, hsilent.trans hpath⟩
      · rintro ⟨p, hp, hpath⟩
        exact ⟨p, (mem_closure hn hlt).2 ⟨p, hp, .done⟩, hpath⟩

/-! ### The deterministic automaton -/

theorem bounded_stepSet :
    Dfa.Bounded n.alphabet n.stepSet (Nat.pow 2 n.size) (n.closure seeds) := by
  have hmem (seeds : List Nat) : n.closure seeds ∈ (List.range n.size).sublists :=
    List.mem_sublists.2 List.filter_sublist
  refine ⟨_, hmem seeds, ?_, ?_⟩
  · rw [List.length_sublists, List.length_range]
    rfl
  · intro nodes _ s _ after hafter
    rw [stepSet_eq] at hafter
    split at hafter
    · cases hafter
    · cases hafter
      exact hmem _

theorem wellFormed_determinize (f : Fragment) : (n.determinize f).WellFormed :=
  Dfa.wellFormed_ofSteps _ bounded_stepSet

@[simp] theorem alphabet_determinize (f : Fragment) : (n.determinize f).alphabet = n.alphabet := rfl

/-- The set after a word holds what paths from the entry with that word lead to. -/
theorem exists_walk_closure_iff (hn : n.WellFormed) (hentry : p < n.size) :
    (∃ after, Dfa.walk n.alphabet n.stepSet (n.closure [p]) w = some after ∧ goal ∈ after) ↔
      n.Path goal p w := by
  have hseeds : ∀ q ∈ [p], q < n.size := by
    intro q hq
    rwa [List.mem_singleton.1 hq]
  rw [exists_walk_stepSet_iff hn (closed_closure hn hseeds)]
  constructor
  · rintro ⟨q, hq, hpath⟩
    obtain ⟨o, ho, hsilent⟩ := (mem_closure hn hseeds).1 hq
    rw [List.mem_singleton.1 ho] at hsilent
    exact hsilent.trans hpath
  · intro hpath
    exact ⟨p, (mem_closure hn hseeds).2 ⟨_, List.mem_singleton_self _, .done⟩, hpath⟩

/-- Determinizing a fragment keeps its words. -/
theorem words_determinize (hn : n.WellFormed) (hentry : f.entry < n.size) :
    (n.determinize f).words = n.words f := by
  ext w
  show w ∈ (Dfa.ofSteps _ _ _ _ _).words ↔ n.Path f.exit f.entry w
  rw [Dfa.mem_words_ofSteps _ bounded_stepSet, ← exists_walk_closure_iff hn hentry]
  simp only [List.contains_iff_mem]

end CallChain.Nfa
