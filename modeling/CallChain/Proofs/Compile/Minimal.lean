import CallChain.Proofs.Compile.Result

/-!
# Minimality of compiled automata

The states of a saturated automaton accept different words. Assembling turns steps into dropped
states, and steps on terminators, into ends of the chain, and keeps the initial state even where
nothing is offered. None of this makes two states alike: a word that one state accepts and another
does not is shortened to a sequence of actions that can be taken from the one and not from the
other (`exists_run_of_possible_subset`).

* `Automaton.possible`: the sequences of actions that can be taken.
* `eq_of_possible_eq`: states before they are numbered.
* `compile_minimal`: states of a compiled automaton.
-/

namespace CallChain

/-! ### What can be taken -/

namespace Automaton

variable {a : Automaton} {s s' : Successor} {q : StateId} {id : ActionId}
  {chain : List ActionId}

variable (a s) in
/-- The sequences of actions that can be taken. Each action is offered in turn, so at most the last
one ends the chain. -/
def possible : Set (List ActionId) := {chain | ∃ s', chain.foldlM a.taken s = some s'}

theorem singleton_mem_possible : [id] ∈ a.possible s ↔ ∃ s', a.taken s id = some s' := by
  have hrun : [id].foldlM a.taken s = a.taken s id := by
    rw [List.foldlM_cons]
    exact bind_pure (a.taken s id)
  show (∃ s', [id].foldlM a.taken s = some s') ↔ _
  rw [hrun]

/-- Behind an action that is offered, what can be taken is what can be taken from its successor. -/
theorem cons_mem_possible_iff (h : a.taken s id = some s') :
    id :: chain ∈ a.possible s ↔ chain ∈ a.possible s' := by
  show (∃ _, (id :: chain).foldlM a.taken s = _) ↔ ∃ _, chain.foldlM a.taken s' = _
  rw [List.foldlM_cons, h]
  rfl

/-- Numbering the states changes nothing about what can be taken. -/
theorem possible_canonical (ha : a.WellFormed) (hq : q ∈ a.order) :
    a.canonical.possible (.state (a.place q)) = a.possible (.state q) := by
  ext chain
  show (∃ _, chain.foldlM _ _ = _) ↔ ∃ _, chain.foldlM _ _ = _
  rw [foldlM_taken_canonical ha hq]
  simp only [← Option.isSome_iff_exists, Option.isSome_map]

/-- Following a sequence that can be taken leads somewhere, and following any other leads
nowhere. -/
theorem chain_of_mem_possible (ha : a.WellFormed) (hs : a.Exists s) (chain : List ActionId) :
    (chain ∈ a.possible s → ∃ s', a.chain s chain = .ok (some s')) ∧
      (chain ∉ a.possible s → a.chain s chain = .ok none) := by
  rw [chain_eq ha hs]
  refine ⟨fun ⟨s', hs'⟩ => ⟨s', congrArg Except.ok hs'⟩, fun hnot => ?_⟩
  refine congrArg Except.ok (Option.eq_none_iff_forall_ne_some.2 fun s' hs' => ?_)
  exact hnot ⟨s', hs'⟩

end Automaton

/-! ### States before they are numbered -/

namespace Alphabet

variable {t : ActionTable} {d : Dfa} {L : Language SymbolKind} {k l : StateId} {y z : Nat}

section Chain

variable (hd : (ofTable t).Represents d L) (hL : IsChain L)

include hd hL

/-- A state that is entered and kept offers some action. -/
theorem exists_taken_of_next {s : Nat} {z' : Nat}
    (hnext : ((ofTable t).saturate t d).next z s = some z')
    (hopen : z' ∈ ((ofTable t).saturate t d).openStates) :
    ∃ id s', (chainAutomaton t d).taken
      (.state ⟨((ofTable t).saturate t d).openStates.idxOf z'⟩) id = some s' := by
  obtain ⟨s, z'', hz''⟩ := (mem_openStates_of_next hd hnext).1 hopen
  obtain ⟨id, hid, rfl⟩ := exists_symbol_of_next_saturate hd hL hz''
  obtain ⟨action, hget⟩ := ActionTable.mem_ids.1 hid
  exact ⟨id, _, (next_assembled (List.getElem?_idxOf hopen)).2 ⟨action, z'', hget, hz'', rfl⟩⟩

/-- Where every sequence of actions that can be taken from one state can be taken from another,
every word that can be run from the first can be run from the second. -/
theorem exists_run_of_possible_subset
    (hk : ((ofTable t).saturate t d).openStates[k.index]? = some z)
    (hl : ((ofTable t).saturate t d).openStates[l.index]? = some y)
    (hsubset : (chainAutomaton t d).possible (.state k) ⊆ (chainAutomaton t d).possible (.state l))
    {w : List Nat} (hw : ∃ z', ((ofTable t).saturate t d).run z w = some z') :
    ∃ y', ((ofTable t).saturate t d).run y w = some y' := by
  induction w generalizing k l y z with
  | nil => exact ⟨y, rfl⟩
  | cons s w ih =>
    obtain ⟨z', hz'⟩ := hw
    obtain ⟨z₁, hz₁, hw⟩ := Option.bind_eq_some_iff.1 hz'
    obtain ⟨id, hid, rfl⟩ := exists_symbol_of_next_saturate hd hL hz₁
    obtain ⟨action, hget⟩ := ActionTable.mem_ids.1 hid
    -- The other state takes the action as well.
    have hnext : (chainAutomaton t d).taken (.state k) id = some _ :=
      (next_assembled hk).2 ⟨action, z₁, hget, hz₁, rfl⟩
    obtain ⟨s', hs'⟩ := Automaton.singleton_mem_possible.1
      (hsubset (Automaton.singleton_mem_possible.2 ⟨_, hnext⟩))
    obtain ⟨action', y₁, hget', hy₁, rfl⟩ := (next_assembled hl).1 hs'
    rw [hget] at hget'
    cases hget'
    have hchain {chain : List ActionId}
        (hmem : chain ∈ (chainAutomaton t d).possible (successorOn _ action z₁)) :
        chain ∈ (chainAutomaton t d).possible (successorOn _ action y₁) :=
      (Automaton.cons_mem_possible_iff hs').1
        (hsubset ((Automaton.cons_mem_possible_iff hnext).2 hmem))
    have hholds : t.holds (·.isTerminator) id = action.isTerminator := by
      rw [ActionTable.holds, hget, Option.any_some]
    suffices h : ∃ y', ((ofTable t).saturate t d).run y₁ w = some y' by
      rwa [Dfa.run, hy₁]
    cases hterminator : action.isTerminator with
    | true =>
      -- A terminator leads back, so the rest of the word is run from the same two states.
      have hloop := next_terminator hd.toWellFormed hid (hholds.trans hterminator) hz₁
      have hloop' := next_terminator hd.toWellFormed hid (hholds.trans hterminator) hy₁
      rw [hloop] at hw
      rw [hloop']
      exact ih hk hl hsubset ⟨z', hw⟩
    | false =>
      by_cases hopen : z₁ ∈ ((ofTable t).saturate t d).openStates
      · rw [successorOn_kept hterminator hopen] at hchain
        by_cases hopen' : y₁ ∈ ((ofTable t).saturate t d).openStates
        · rw [successorOn_kept hterminator hopen'] at hchain
          exact ih (List.getElem?_idxOf hopen) (List.getElem?_idxOf hopen') (fun _ => hchain)
            ⟨z', hw⟩
        · -- Something is offered behind the one state, and nothing behind the end of a chain.
          obtain ⟨next, s', hs'⟩ := exists_taken_of_next hd hL hz₁ hopen
          rw [successorOn_dropped hterminator hopen'] at hchain
          obtain ⟨_, hterminal⟩ := Automaton.singleton_mem_possible.1
            (hchain (Automaton.singleton_mem_possible.2 ⟨s', hs'⟩))
          cases hterminal
      · -- A state that is dropped takes nothing, so the word ends here.
        cases w with
        | nil => exact ⟨y₁, rfl⟩
        | cons s w =>
          obtain ⟨z₂, hz₂, -⟩ := Option.bind_eq_some_iff.1 hw
          exact absurd (Dfa.mem_openStates.2 (.inr ⟨s, z₂, hz₂⟩)) hopen

/-- States are told apart by what can be taken from them. -/
theorem eq_of_possible_eq (hk : k.index < (chainAutomaton t d).stateCount)
    (hl : l.index < (chainAutomaton t d).stateCount)
    (h : (chainAutomaton t d).possible (.state k) = (chainAutomaton t d).possible (.state l)) :
    k = l := by
  rw [stateCount_assembled] at hk hl
  have hminimal := minimal_saturate (t := t) hd.toWellFormed
  have hwords {z : Nat} (hz : z < ((ofTable t).saturate t d).size) (w : List Nat) :
      w ∈ ((ofTable t).saturate t d).wordsFrom z ↔
        ∃ z', ((ofTable t).saturate t d).run z w = some z' := by
    rw [Dfa.mem_wordsFrom]
    refine exists_congr fun z' => and_iff_left_of_imp fun hz' => ?_
    exact isAccepting_saturate hd.toWellFormed (hminimal.toWellFormed.run_lt hz hz')
  have hz := List.getElem?_eq_getElem hk
  have hy := List.getElem?_eq_getElem hl
  have hzlt := lt_size_of_mem_openStates hd (List.getElem_mem hk)
  have hylt := lt_size_of_mem_openStates hd (List.getElem_mem hl)
  have heq : ((ofTable t).saturate t d).openStates[k.index] =
      ((ofTable t).saturate t d).openStates[l.index] := by
    refine hminimal.distinct _ hzlt _ hylt ?_
    ext w
    rw [hwords hzlt, hwords hylt]
    exact ⟨exists_run_of_possible_subset hd hL hz hy h.subset,
      exists_run_of_possible_subset hd hL hy hz h.superset⟩
  have hindex : k.index = l.index := Dfa.nodup_openStates.getElem_inj_iff.1 heq
  cases k
  cases l
  cases hindex
  rfl

end Chain

end Alphabet

/-! ### Compiled automata -/

/-- A compiled automaton is minimal. From two different states different sequences of actions can be
taken: some sequence leads somewhere from one of them and nowhere from the other. -/
theorem compile_minimal {r : Registry} {t : ActionTable} {A : Automaton}
    (h : (r.compile t).1 = .ok A) {q p : StateId} (hq : q.index < A.stateCount)
    (hp : p.index < A.stateCount) (hne : q ≠ p) :
    ∃ actions,
      (∃ s, A.chain (.state q) actions = .ok (some s)) ∧ A.chain (.state p) actions = .ok none ∨
        A.chain (.state q) actions = .ok none ∧ ∃ s, A.chain (.state p) actions = .ok (some s) := by
  obtain ⟨compiled, d, -, -, hd, rfl⟩ := exists_of_compile_eq_ok h
  have hchain := isChain_root (r := r) (t := t) (environment t compiled)
  have hwf := Alphabet.wellFormed_assembled (t := t) (d := (Alphabet.ofTable t).saturate t d)
  have hcanonical := Automaton.wellFormed_canonical hwf
  have hpossible : (Alphabet.chainAutomaton t d).canonical.possible (.state q) ≠
      (Alphabet.chainAutomaton t d).canonical.possible (.state p) := by
    intro heq
    obtain ⟨k, hk, rfl⟩ := Automaton.exists_place_eq (Automaton.stateCount_canonical ▸ hq)
    obtain ⟨l, hl, rfl⟩ := Automaton.exists_place_eq (Automaton.stateCount_canonical ▸ hp)
    rw [Automaton.possible_canonical hwf hk, Automaton.possible_canonical hwf hl] at heq
    refine hne (congrArg _ (Alphabet.eq_of_possible_eq hd hchain ?_ ?_ heq))
    · exact Automaton.index_lt_of_mem_order hwf hk
    · exact Automaton.index_lt_of_mem_order hwf hl
  obtain ⟨actions, hactions⟩ : ∃ actions,
      ¬(actions ∈ (Alphabet.chainAutomaton t d).canonical.possible (.state q) ↔
        actions ∈ (Alphabet.chainAutomaton t d).canonical.possible (.state p)) := by
    by_contra hall
    push Not at hall
    exact hpossible (Set.ext hall)
  obtain ⟨htaken, hrefused⟩ :=
    Automaton.chain_of_mem_possible hcanonical (s := .state q) hq actions
  obtain ⟨htaken', hrefused'⟩ :=
    Automaton.chain_of_mem_possible hcanonical (s := .state p) hp actions
  refine ⟨actions, ?_⟩
  by_cases hmem : actions ∈ (Alphabet.chainAutomaton t d).canonical.possible (.state q)
  · exact .inl ⟨htaken hmem, hrefused' fun hmem' => hactions (iff_of_true hmem hmem')⟩
  · refine .inr ⟨hrefused hmem, htaken' ?_⟩
    by_contra hmem'
    exact hactions (iff_of_false hmem hmem')

/-- The grammar `add total`. -/
def singleSum : Registry where
  root := .unplaced .root <| .concat
    [.literal ⟨"add", .unplaced⟩, .literal ⟨"total", .unplaced⟩]
  named := []
  root_role := rfl
  names_agree := names_agree_nil
  names_nodup := List.nodup_nil

theorem compile_minimal_singleSum : ∃ A, (singleSum.compile sumActions).1 = .ok A ∧
    A.states = #[[(⟨0⟩, .state ⟨1⟩)], [(⟨1⟩, .terminal)]] ∧
      ∃ actions,
        (∃ s, A.chain (.state ⟨0⟩) actions = .ok (some s)) ∧
            A.chain (.state ⟨1⟩) actions = .ok none ∨
          A.chain (.state ⟨0⟩) actions = .ok none ∧
            ∃ s, A.chain (.state ⟨1⟩) actions = .ok (some s) := by
  have hstates : (singleSum.compile sumActions).1.map Automaton.states =
      .ok #[[(⟨0⟩, .state ⟨1⟩)], [(⟨1⟩, .terminal)]] := by decide +kernel
  cases hcompile : (singleSum.compile sumActions).1 with
  | error e =>
    rw [hcompile] at hstates
    cases hstates
  | ok A =>
    rw [hcompile] at hstates
    have hA : A.states = #[[(⟨0⟩, .state ⟨1⟩)], [(⟨1⟩, .terminal)]] := Except.ok.inj hstates
    have hcount : A.stateCount = 2 := congrArg Array.size hA
    refine ⟨A, rfl, hA, compile_minimal hcompile ?_ ?_ (by decide)⟩
    · rw [hcount]
      decide
    · rw [hcount]
      decide

end CallChain
