import CallChain.Finite.Nfa
import Mathlib.Computability.Language
import Mathlib.Order.CompletePartialOrder

/-!
# Paths through automata with silent steps

`Nfa.wordsTo` are the words on the paths from a node to a goal. They are the least languages that
the steps of the automaton allow (`wordsTo_le`), which is how the words of every construction on
fragments are found: it is enough to say which words should lead from each node to the goal.

* `wordsTo_le`: what bounds the words on paths.
* `mul_wordsTo_le`: paths can be put one behind the other.
* `wordsTo_congr`: the words from a region that no step leaves depend on the region alone.
-/

namespace CallChain.Nfa

variable (n : Nfa)

/-- The steps from a node that take a symbol. -/
def edgesOf (node : Nat) : List (SymbolRange × Nat) := (n.nodes[node]?.map (·.edges)).getD []

/-- A path to a goal, with the symbols that it takes. -/
inductive Path (goal : Nat) : Nat → List Nat → Prop where
  | done : Path goal goal []
  | silent {p q : Nat} {w : List Nat} (hstep : q ∈ n.silentSteps p) (rest : Path goal q w) :
      Path goal p w
  | symbol {p q s : Nat} {r : SymbolRange} {w : List Nat} (hstep : (r, q) ∈ n.edgesOf p)
      (hs : r.contains s = true) (rest : Path goal q w) : Path goal p (s :: w)

/-- The words on the paths from a node to a goal. -/
def wordsTo (goal node : Nat) : Language Nat := {w | n.Path goal node w}

/-- The words of a fragment. -/
def words (f : Fragment) : Language Nat := n.wordsTo f.exit f.entry

variable {n} {n' : Nfa} {goal p q s : Nat} {r : SymbolRange} {u v w : List Nat}

/-! ### Paths -/

theorem Path.trans {via : Nat} (hu : n.Path via p u) (hv : n.Path goal via v) :
    n.Path goal p (u ++ v) := by
  induction hu with
  | done => exact hv
  | silent hstep _ ih => exact .silent hstep ih
  | symbol hstep hs _ ih => exact .symbol hstep hs ih

/-- Paths can be put one behind the other. -/
theorem mul_wordsTo_le (via : Nat) :
    n.wordsTo via p * n.wordsTo goal via ≤ n.wordsTo goal p := by
  intro w hw
  obtain ⟨u, hu, v, hv, rfl⟩ := Language.mem_mul.1 hw
  exact Path.trans hu hv

theorem one_le_wordsTo : 1 ≤ n.wordsTo goal goal := by
  intro w hw
  rw [(Language.mem_one w).1 hw]
  exact Path.done

theorem wordsTo_le_of_silent (hstep : q ∈ n.silentSteps p) :
    n.wordsTo goal q ≤ n.wordsTo goal p :=
  fun _ hw => Path.silent hstep hw

theorem symbol_mul_wordsTo_le (hstep : (r, q) ∈ n.edgesOf p) (hs : r.contains s = true) :
    {[s]} * n.wordsTo goal q ≤ n.wordsTo goal p := by
  intro w hw
  obtain ⟨u, hu, v, hv, rfl⟩ := Language.mem_mul.1 hw
  rw [show u = [s] from hu]
  exact Path.symbol hstep hs hv

/-! ### Bounds on words -/

variable (n) in
/-- A set of nodes that no step leaves, with steps on symbols of the alphabet. -/
structure Region (R : Set Nat) : Prop where
  lt_size : ∀ p ∈ R, p < n.size
  silent_mem : ∀ p ∈ R, ∀ q ∈ n.silentSteps p, q ∈ R
  edge_mem : ∀ p ∈ R, ∀ r q, (r, q) ∈ n.edgesOf p → q ∈ R
  stop_le : ∀ p ∈ R, ∀ r q, (r, q) ∈ n.edgesOf p → r.stop ≤ n.alphabet

variable (n) in
/-- What leads from each node of a set to the goal is closed under the steps from these nodes. -/
structure Respects (R : Set Nat) (K : Nat → Language Nat) : Prop where
  silent_le : ∀ p ∈ R, ∀ q ∈ n.silentSteps p, K q ≤ K p
  symbol_le : ∀ p ∈ R, ∀ r q, (r, q) ∈ n.edgesOf p → ∀ s, r.contains s = true → {[s]} * K q ≤ K p

variable {R S : Set Nat} {K K' : Nat → Language Nat}

/-- Languages that the steps of a region respect bound the words on its paths. -/
theorem wordsTo_le (hR : n.Region R) (hK : n.Respects R K) (hgoal : 1 ≤ K goal) (hp : p ∈ R) :
    n.wordsTo goal p ≤ K p := by
  intro w hw
  induction hw with
  | done => exact hgoal ((Language.mem_one _).2 rfl)
  | silent hstep _ ih => exact hK.silent_le _ hp _ hstep (ih (hR.silent_mem _ hp _ hstep))
  | symbol hstep hs _ ih =>
    refine hK.symbol_le _ hp _ _ hstep _ hs (Language.mem_mul.2 ⟨_, rfl, _, ?_, rfl⟩)
    exact ih (hR.edge_mem _ hp _ _ hstep)

/-- The words to a goal, continued in one and the same way, respect all steps. -/
theorem respects_wordsTo_mul (goal : Nat) (M : Language Nat) :
    n.Respects R fun p => n.wordsTo goal p * M where
  silent_le _ _ _ hstep := mul_le_mul_left (wordsTo_le_of_silent hstep) M
  symbol_le _ _ _ _ hstep s hs := by
    rw [← mul_assoc]
    exact mul_le_mul_left (symbol_mul_wordsTo_le hstep hs) M

theorem Respects.congr (hR : n.Region R) (hK : n.Respects R K) (heq : ∀ p ∈ R, K' p = K p) :
    n.Respects R K' where
  silent_le p hp q hstep := by
    rw [heq p hp, heq q (hR.silent_mem p hp q hstep)]
    exact hK.silent_le p hp q hstep
  symbol_le p hp r q hstep s hs := by
    rw [heq p hp, heq q (hR.edge_mem p hp r q hstep)]
    exact hK.symbol_le p hp r q hstep s hs

theorem Respects.union (hR : n.Respects R K) (hS : n.Respects S K) : n.Respects (R ∪ S) K where
  silent_le p hp := hp.elim (hR.silent_le p) (hS.silent_le p)
  symbol_le p hp := hp.elim (hR.symbol_le p) (hS.symbol_le p)

theorem Region.union (hR : n.Region R) (hS : n.Region S) : n.Region (R ∪ S) where
  lt_size p hp := hp.elim (hR.lt_size p) (hS.lt_size p)
  silent_mem p hp q hstep :=
    hp.imp (fun hp => hR.silent_mem p hp q hstep) (fun hp => hS.silent_mem p hp q hstep)
  edge_mem p hp r q hstep :=
    hp.imp (fun hp => hR.edge_mem p hp r q hstep) (fun hp => hS.edge_mem p hp r q hstep)
  stop_le p hp := hp.elim (hR.stop_le p) (hS.stop_le p)

/-! ### Paths in other automata -/

/-- More steps allow more words. -/
theorem wordsTo_mono (hsilent : ∀ p q, q ∈ n.silentSteps p → q ∈ n'.silentSteps p)
    (hedges : ∀ p r q, (r, q) ∈ n.edgesOf p → (r, q) ∈ n'.edgesOf p) :
    n.wordsTo goal p ≤ n'.wordsTo goal p := by
  intro w hw
  induction hw with
  | done => exact .done
  | silent hstep _ ih => exact .silent (hsilent _ _ hstep) ih
  | symbol hstep hs _ ih => exact .symbol (hedges _ _ _ hstep) hs ih

section Congr

variable (hnodes : ∀ q ∈ R, n'.nodes[q]? = n.nodes[q]?)

include hnodes

theorem silentSteps_congr (hp : p ∈ R) : n'.silentSteps p = n.silentSteps p := by
  rw [silentSteps, silentSteps, hnodes p hp]

theorem edgesOf_congr (hp : p ∈ R) : n'.edgesOf p = n.edgesOf p := by
  rw [edgesOf, edgesOf, hnodes p hp]

/-- A region is one of every automaton that has the same nodes there. -/
theorem Region.congr (hR : n.Region R) (halphabet : n'.alphabet = n.alphabet) : n'.Region R where
  lt_size p hp := by
    have hlt : p < n.nodes.size := hR.lt_size p hp
    have hnode := hnodes p hp
    rw [Array.getElem?_eq_getElem hlt] at hnode
    exact (Array.getElem?_eq_some_iff.1 hnode).1
  silent_mem p hp := by
    rw [silentSteps_congr hnodes hp]
    exact hR.silent_mem p hp
  edge_mem p hp := by
    rw [edgesOf_congr hnodes hp]
    exact hR.edge_mem p hp
  stop_le p hp := by
    rw [edgesOf_congr hnodes hp, halphabet]
    exact hR.stop_le p hp

/-- The words from a region that no step leaves depend on the region alone. -/
theorem wordsTo_congr (hR : n.Region R) (halphabet : n'.alphabet = n.alphabet) (hp : p ∈ R) :
    n'.wordsTo goal p = n.wordsTo goal p := by
  apply le_antisymm
  · refine wordsTo_le (hR.congr hnodes halphabet) ⟨?_, ?_⟩ one_le_wordsTo hp
    · intro p hp q hstep
      rw [silentSteps_congr hnodes hp] at hstep
      exact wordsTo_le_of_silent hstep
    · intro p hp r q hstep s hs
      rw [edgesOf_congr hnodes hp] at hstep
      exact symbol_mul_wordsTo_le hstep hs
  · refine wordsTo_le hR ⟨?_, ?_⟩ one_le_wordsTo hp
    · intro p hp q hstep
      rw [← silentSteps_congr hnodes hp] at hstep
      exact wordsTo_le_of_silent hstep
    · intro p hp r q hstep s hs
      rw [← edgesOf_congr hnodes hp] at hstep
      exact symbol_mul_wordsTo_le hstep hs

end Congr

end CallChain.Nfa
