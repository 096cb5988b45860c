import CallChain.Proofs.Automaton.Canonical
import CallChain.Proofs.Compile.Minimal

/-!
# Actions that may be repeated

A transition is marked as variadic if its action stays in the state that the transition leads to.
The mark looks at state handles alone. In a compiled automaton it tells that taking the action once
more changes nothing about what can be taken afterwards, because there the states are told apart by
what can be taken from them.

* `eq_of_possible_compiled_eq`: states of compiled automata.
* `isVarargsApplicable_exact`: which transitions are marked.
-/

namespace CallChain

namespace Automaton

variable {a : Automaton} {s : Successor} {id : ActionId} {actions : List ActionId}

/-! ### What can be taken afterwards -/

variable (a actions) in
/-- The sequences of actions that can be taken behind some others. -/
def behind : Set (List ActionId) :=
  {later | ∃ s, a.chain (.state a.initial) (actions ++ later) = .ok (some s)}

/-- What can be taken behind some actions is what can be taken from where they lead. -/
theorem behind_eq_possible (ha : a.WellFormed)
    (hactions : a.chain (.state a.initial) actions = .ok (some s)) :
    a.behind actions = a.possible s := by
  rw [chain_initial_eq ha, Except.ok.injEq] at hactions
  ext later
  show (∃ s', a.chain _ (actions ++ later) = _) ↔ ∃ s', later.foldlM a.taken s = some s'
  simp only [chain_initial_eq ha, List.foldlM_append, hactions, Except.ok.injEq]
  exact Iff.rfl

/-- Nothing but the empty sequence can be taken behind the end of a chain. -/
theorem singleton_not_mem_possible_terminal : [id] ∉ a.possible .terminal := by
  rw [singleton_mem_possible]
  rintro ⟨s, hs⟩
  cases hs

end Automaton

/-! ### Compiled automata -/

variable {r : Registry} {t : ActionTable} {A : Automaton}

/-- States of a compiled automaton are told apart by what can be taken from them. -/
theorem eq_of_possible_compiled_eq (h : (r.compile t).1 = .ok A) {q p : StateId}
    (hq : q.index < A.stateCount) (hp : p.index < A.stateCount)
    (hsame : A.possible (.state q) = A.possible (.state p)) : q = p := by
  obtain ⟨compiled, d, -, -, hd, rfl⟩ := exists_of_compile_eq_ok h
  have hchain := isChain_root (r := r) (t := t) (environment t compiled)
  have hwf := Alphabet.wellFormed_assembled (t := t) (d := (Alphabet.ofTable t).saturate t d)
  obtain ⟨k, hk, rfl⟩ := Automaton.exists_place_eq (Automaton.stateCount_canonical ▸ hq)
  obtain ⟨l, hl, rfl⟩ := Automaton.exists_place_eq (Automaton.stateCount_canonical ▸ hp)
  rw [Automaton.possible_canonical hwf hk, Automaton.possible_canonical hwf hl] at hsame
  refine congrArg _ (Alphabet.eq_of_possible_eq hd hchain ?_ ?_ hsame)
  · exact Automaton.index_lt_of_mem_order hwf hk
  · exact Automaton.index_lt_of_mem_order hwf hl

theorem table_of_compile_eq_ok (h : (r.compile t).1 = .ok A) : A.table = t := by
  obtain ⟨compiled, d, -, -, -, rfl⟩ := exists_of_compile_eq_ok h
  rfl

/-- An action stays in a state of a compiled automaton if and only if taking it there changes
nothing about what can be taken. -/
theorem next_eq_self_iff_of_compile (h : (r.compile t).1 = .ok A) {q : StateId} {s : Successor}
    {id : ActionId} (hq : A.Exists (.state q)) (hnext : A.next q id = some s) :
    s = .state q ↔ A.possible s = A.possible (.state q) := by
  have hwf := wellFormed_of_compile_eq_ok h
  constructor
  · rintro rfl
    rfl
  · intro hsame
    cases s with
    | terminal =>
      -- the action itself can be taken from the state, and not behind the end of a chain
      have hmem : [id] ∈ A.possible (.state q) := Automaton.singleton_mem_possible.2 ⟨_, hnext⟩
      rw [← hsame] at hmem
      exact absurd hmem Automaton.singleton_not_mem_possible_terminal
    | state p => rw [eq_of_possible_compiled_eq h (hwf.exists_of_next hnext) hq hsame]

/-- The mark of a variadic transition is exact on compiled automata. Behind actions that lead to its
source, a transition is marked if and only if its action does not end chains, allows it, is offered
again where the transition leads, and changes nothing about what can be taken when it is taken once
more. -/
theorem isVarargsApplicable_exact (h : (r.compile t).1 = .ok A) (actions : List ActionId)
    (step : Transition)
    (hactions : A.chain (.state A.initial) actions = .ok (some (.state step.source)))
    (hstep : A.successor? step.source step.action = .ok (some step.successor)) :
    ∃ applicable, A.isVarargsApplicable step = .ok applicable ∧
      (applicable = true ↔
        t.holds (·.isTerminator) step.action = false ∧
        t.holds (·.allowsVarargs) step.action = true ∧
        (∃ target s, step.successor = .state target ∧
          A.successor? target step.action = .ok (some s)) ∧
        A.behind (actions ++ [step.action, step.action]) =
          A.behind (actions ++ [step.action])) := by
  have hwf := wellFormed_of_compile_eq_ok h
  have htable := table_of_compile_eq_ok h
  obtain ⟨source, id, successor⟩ := step
  dsimp only at hactions hstep ⊢
  have hsource : source.index < A.stateCount :=
    Automaton.index_lt_of_mem_order hwf ((Automaton.mem_order_iff_reachable hwf).2 ⟨_, hactions⟩)
  rw [Automaton.successor?_eq hsource, Except.ok.injEq] at hstep
  have honce : A.chain (.state A.initial) (actions ++ [id]) = .ok (some successor) :=
    (Automaton.chain_snoc hwf hactions id).trans (congrArg _ hstep)
  refine ⟨_, Automaton.isVarargsApplicable_eq_isRepeatable hwf hstep, ?_⟩
  rw [Automaton.isRepeatable_iff, htable]
  refine and_congr_right fun _ => and_congr_right fun _ => ?_
  cases successor with
  | terminal => simp
  | state target =>
    have htarget : A.Exists (.state target) := hwf.exists_of_next hstep
    have htwice (s : Successor) (hs : A.next target id = some s) :
        A.behind (actions ++ [id, id]) = A.possible s := by
      refine Automaton.behind_eq_possible hwf ?_
      rw [List.append_cons, Automaton.chain_snoc hwf honce, hs]
    rw [Automaton.behind_eq_possible hwf honce]
    -- the mark asks for a loop, which is told by what can be taken there and one action later
    constructor
    · rintro ⟨_, heq, hloop⟩
      cases heq
      refine ⟨⟨target, _, rfl, (Automaton.successor?_eq htarget id).trans (congrArg _ hloop)⟩, ?_⟩
      exact htwice _ hloop
    · rintro ⟨⟨_, s, heq, hs⟩, hsame⟩
      cases heq
      rw [Automaton.successor?_eq htarget, Except.ok.injEq] at hs
      rw [htwice s hs] at hsame
      refine ⟨target, rfl, ?_⟩
      rw [hs, (next_eq_self_iff_of_compile h htarget hs).2 hsame]

/-- The actions of a sum of many numbers. -/
def variadicActions : ActionTable :=
  ⟨[{ Action.ofName "add" with allowsVarargs := true }, .ofName "total"], [⟨0⟩, ⟨1⟩], by decide,
    by decide⟩

/-- The grammar `add add+ total`. -/
def longSums : Registry where
  root := .unplaced .root <| .concat [.literal ⟨"add", .unplaced⟩,
    .quantified (.literal ⟨"add", .unplaced⟩) .plus, .literal ⟨"total", .unplaced⟩]
  named := []
  root_role := rfl
  names_agree := names_agree_nil
  names_nodup := List.nodup_nil

/-- The first number may not be repeated, since a sum has two at least, and the second one may. -/
theorem isVarargsApplicable_exact_longSums : ∃ A, (longSums.compile variadicActions).1 = .ok A ∧
    A.states = #[[(⟨0⟩, .state ⟨1⟩)], [(⟨0⟩, .state ⟨2⟩)],
      [(⟨0⟩, .state ⟨2⟩), (⟨1⟩, .terminal)]] ∧
    A.isVarargsApplicable ⟨⟨0⟩, ⟨0⟩, .state ⟨1⟩⟩ = .ok false ∧
    A.behind [⟨0⟩, ⟨0⟩] ≠ A.behind [⟨0⟩] ∧
    A.isVarargsApplicable ⟨⟨1⟩, ⟨0⟩, .state ⟨2⟩⟩ = .ok true ∧
    A.behind [⟨0⟩, ⟨0⟩, ⟨0⟩] = A.behind [⟨0⟩, ⟨0⟩] := by
  have hcompiles : (longSums.compile variadicActions).1.toOption.map
      (fun A => (A.states, A.initial)) = some (#[[(⟨0⟩, .state ⟨1⟩)], [(⟨0⟩, .state ⟨2⟩)],
        [(⟨0⟩, .state ⟨2⟩), (⟨1⟩, .terminal)]], ⟨0⟩) := by decide +kernel
  obtain ⟨⟨table, states, initial⟩, hA, hparts⟩ := exists_of_toOption_map hcompiles
  obtain ⟨rfl, rfl⟩ := Prod.mk.inj hparts
  obtain rfl : table = variadicActions := table_of_compile_eq_ok hA
  refine ⟨_, hA, rfl, rfl, fun hsame => ?_, rfl, ?_⟩
  · obtain ⟨applicable, happlicable, hexact⟩ :=
      isVarargsApplicable_exact hA [] ⟨⟨0⟩, ⟨0⟩, .state ⟨1⟩⟩ rfl rfl
    cases happlicable
    cases hexact.2 ⟨rfl, rfl, ⟨⟨1⟩, .state ⟨2⟩, rfl, rfl⟩, hsame⟩
  · obtain ⟨applicable, happlicable, hexact⟩ :=
      isVarargsApplicable_exact hA [⟨0⟩] ⟨⟨1⟩, ⟨0⟩, .state ⟨2⟩⟩ rfl rfl
    cases happlicable
    exact (hexact.1 rfl).2.2.2

end CallChain
