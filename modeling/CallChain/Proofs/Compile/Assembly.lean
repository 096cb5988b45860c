import CallChain.Proofs.Compile.Assembling
import CallChain.Proofs.Compile.Saturation

/-!
# Assembled automata

Assembling a saturated automaton never fails, and chains of the assembled automaton lead through
matching positions (`Matches`): an action is offered at a position exactly if the matching state
connects it, and then leads to a matching successor.

* `assemble_eq`: what is assembled.
* `Matches.taken_of_offers`, `Matches.taken_eq_none`: one action.
* `Matches.foldlM`: a sequence of actions.
-/

namespace CallChain

namespace Alphabet

variable {t : ActionTable} {d : Dfa} {kept : List Nat} {q q' : Nat} {id : ActionId} {s : Successor}

/-! ### What is assembled -/

theorem stateCount_assembled : (assembled t d).stateCount = d.openStates.length :=
  stateCount_withRows

theorem out_assembled {k : StateId} (hk : d.openStates[k.index]? = some q) :
    (assembled t d).out k = assembledOut t d d.openStates q := by
  have hrow : (assembled t d).outgoing? k = some (assembledOut t d d.openStates q) := by
    show (d.openStates.map _).toArray[k.index]? = _
    rw [List.getElem?_toArray, List.getElem?_map, hk]
    rfl
  rw [Automaton.out, hrow, Option.getD_some]

theorem out_assembled_cases (k : StateId) : (assembled t d).out k = [] ∨
    ∃ q, (assembled t d).out k = assembledOut t d d.openStates q := by
  cases hk : d.openStates[k.index]? with
  | some q => exact .inr ⟨q, out_assembled hk⟩
  | none =>
    have hrow : (assembled t d).outgoing? k = none := by
      show (d.openStates.map _).toArray[k.index]? = _
      rw [List.getElem?_toArray, List.getElem?_map, hk]
      rfl
    rw [Automaton.out, hrow]
    exact .inl rfl

theorem wellFormed_assembled : (assembled t d).WellFormed := by
  refine ⟨?_, ?_, ?_, ?_⟩
  · rw [stateCount_assembled]
    exact Nat.zero_lt_succ _
  · intro k
    rcases out_assembled_cases k with hout | ⟨q, hout⟩
    · rw [hout]
      exact List.nodup_nil
    · rw [hout]
      exact nodup_assembledOut
  · rintro k ⟨id, s⟩ he
    rcases out_assembled_cases k with hout | ⟨q, hout⟩
    · rw [hout] at he
      cases he
    · rw [hout, mem_assembledOut] at he
      obtain ⟨action, q', hget, -, -⟩ := he
      exact ActionTable.mem_ids.2 ⟨action, hget⟩
  · intro k id target he
    rcases out_assembled_cases k with hout | ⟨q, hout⟩
    · rw [hout] at he
      cases he
    · rw [hout, mem_assembledOut] at he
      obtain ⟨action, q', -, -, heq⟩ := he
      obtain ⟨-, hidx⟩ := successorOn_eq_state_iff.1 heq.symm
      rw [stateCount_assembled]
      exact (List.idxOf?_eq_some_iff.1 hidx).1

/-- Assembling never fails. -/
theorem assemble_eq (hd : d.WellFormed) :
    (ofTable t).assemble t d = .ok (assembled t d).canonical := by
  obtain ⟨keeping, hkeeping, hkeeps⟩ := exists_states (t := t) hd
  rw [assemble, hkeeping, ok_bind, hkeeps.automaton_eq, assembleStates_eq hd hkeeps, ok_bind]
  exact Automaton.canonicalize_eq wellFormed_assembled

/-- Where an action leads from a state that is kept. -/
theorem next_assembled {k : StateId} (hk : d.openStates[k.index]? = some q) :
    (assembled t d).next k id = some s ↔
      ∃ action q', t.get? id = some action ∧ d.next q ((ofTable t).symbol id) = some q' ∧
        s = successorOn d.openStates action q' := by
  rw [wellFormed_assembled.next_eq_some_iff, out_assembled hk, mem_assembledOut]

/-! ### Positions and states -/

section Matches

variable {L : Language SymbolKind} {pos : Position} {taken : List ActionId} {k : StateId}

variable (t d) in
/-- The chain automaton of an automaton without anchors, before its states are numbered. -/
abbrev chainAutomaton : Automaton := assembled t ((ofTable t).saturate t d)

variable (t d) in
/-- A state at a position, or both are the end of the chain. -/
inductive Matches : Position → Successor → Prop where
  | after {taken : List ActionId} {k : StateId} {z : Nat}
      (hk : ((ofTable t).saturate t d).openStates[k.index]? = some z)
      (htracks : Tracks t d taken z) : Matches (.after taken) (.state k)
  | ended : Matches .ended .terminal

theorem matches_initial (hd : d.WellFormed) : Matches t d (.after []) (.state ⟨0⟩) :=
  .after rfl (tracks_initial hd)

variable (hd : (ofTable t).Represents d L) (hL : IsChain L)

include hd hL

/-- Something is offered at a position if its states have transitions. -/
theorem Tracks.offers_nonempty_iff {z : Nat} (h : Tracks t d taken z) :
    ((Position.after taken).offers t L).Nonempty ↔
      ∃ s z', ((ofTable t).saturate t d).next z s = some z' := by
  constructor
  · rintro ⟨id, hid⟩
    have hmem := mem_ids_of_offers hd hid
    exact ⟨_, (h.offers_iff hd hL hmem).2 hid⟩
  · rintro ⟨s, z', hnext⟩
    obtain ⟨id, hid, rfl⟩ := exists_symbol_of_next_saturate hd hL hnext
    exact ⟨id, (h.offers_iff hd hL hid).1 ⟨z', hnext⟩⟩

omit hL in
/-- A state that some transition enters is kept exactly if it has transitions itself. -/
theorem mem_openStates_of_next {z z' symbol : Nat}
    (h : ((ofTable t).saturate t d).next z symbol = some z') :
    z' ∈ ((ofTable t).saturate t d).openStates ↔
      ∃ s z'', ((ofTable t).saturate t d).next z' s = some z'' := by
  rw [Dfa.mem_openStates]
  refine ⟨?_, .inr⟩
  rintro (rfl | hopen)
  · -- the way to the transition begins with one from the initial state
    have hminimal := minimal_saturate (t := t) hd.toWellFormed
    obtain ⟨w, hw⟩ := hminimal.reached z (Dfa.lt_size_of_next h)
    rw [← hminimal.initial_eq] at hw
    cases w with
    | nil =>
      cases hw
      exact ⟨symbol, _, h⟩
    | cons s w =>
      obtain ⟨z'', hz'', -⟩ := Option.bind_eq_some_iff.1 hw
      exact ⟨s, z'', hz''⟩
  · exact hopen

omit hL in
theorem lt_size_of_mem_openStates {z : Nat} (hz : z ∈ ((ofTable t).saturate t d).openStates) :
    z < ((ofTable t).saturate t d).size := by
  rcases Dfa.mem_openStates.1 hz with rfl | ⟨s, z', hz'⟩
  · exact (minimal_saturate hd.toWellFormed).initial_lt
  · exact Dfa.lt_size_of_next hz'

/-- An action that is offered leads to a matching successor. -/
theorem Matches.taken_of_offers {s : Successor} (h : Matches t d (.after taken) s)
    (hid : id ∈ (Position.after taken).offers t L) :
    ∃ s', (chainAutomaton t d).taken s id = some s' ∧
      Matches t d (Position.successor t L taken id) s' := by
  cases h with
  | @after _ k z hk htracks =>
    have hmem := mem_ids_of_offers hd hid
    obtain ⟨action, hget⟩ := ActionTable.mem_ids.1 hmem
    obtain ⟨z', hz'⟩ := (htracks.offers_iff hd hL hmem).2 hid
    refine ⟨_, (next_assembled hk).2 ⟨action, z', hget, hz', rfl⟩, ?_⟩
    have hholds : t.holds (·.isTerminator) id = action.isTerminator := by
      rw [ActionTable.holds, hget, Option.any_some]
    unfold Position.successor
    cases hterminator : action.isTerminator with
    | true =>
      rw [if_pos (hholds.trans hterminator), successorOn_terminator hterminator]
      exact .ended
    | false =>
      have hnot : t.holds (·.isTerminator) id = false := hholds.trans hterminator
      have htracks' := htracks.next hd hL hmem hnot hz'
      rw [if_neg (by rw [hnot]; decide)]
      dsimp only
      by_cases hopen : z' ∈ ((ofTable t).saturate t d).openStates
      · have hnonempty := (htracks'.offers_nonempty_iff hd hL).2
          ((mem_openStates_of_next hd hz').1 hopen)
        rw [if_pos hnonempty, successorOn_kept hterminator hopen]
        exact .after (List.getElem?_idxOf hopen) htracks'
      · have hempty := mt (htracks'.offers_nonempty_iff hd hL).1
          (mt (mem_openStates_of_next hd hz').2 hopen)
        rw [if_neg hempty, successorOn_dropped hterminator hopen]
        exact .ended

/-- An action that is not offered leads nowhere. -/
theorem Matches.taken_eq_none {s : Successor} (h : Matches t d pos s)
    (hid : id ∉ pos.offers t L) : (chainAutomaton t d).taken s id = none := by
  cases h with
  | ended => rfl
  | @after _ k z hk htracks =>
    rw [Option.eq_none_iff_forall_ne_some]
    intro s hs
    obtain ⟨action, z', hget, hz', -⟩ := (next_assembled hk).1 hs
    exact hid ((htracks.offers_iff hd hL (ActionTable.mem_ids.2 ⟨action, hget⟩)).1 ⟨z', hz'⟩)

theorem Matches.offers_iff {s : Successor} (h : Matches t d pos s) :
    (∃ s', (chainAutomaton t d).taken s id = some s') ↔ id ∈ pos.offers t L := by
  constructor
  · rintro ⟨s', hs'⟩
    by_contra hid
    rw [h.taken_eq_none hd hL hid] at hs'
    cases hs'
  · intro hid
    cases h with
    | ended => exact hid.elim
    | after hk htracks =>
      obtain ⟨s', hs', -⟩ := (Matches.after hk htracks).taken_of_offers hd hL hid
      exact ⟨s', hs'⟩

/-- Sequences of actions lead to matching successors, or nowhere at all. -/
theorem Matches.foldlM {s : Successor} (h : Matches t d pos s) (actions : List ActionId) :
    (actions.foldlM (Position.take t L) pos = none ∧
        actions.foldlM (chainAutomaton t d).taken s = none) ∨
      ∃ pos' s', actions.foldlM (Position.take t L) pos = some pos' ∧
        actions.foldlM (chainAutomaton t d).taken s = some s' ∧ Matches t d pos' s' := by
  induction actions generalizing pos s with
  | nil => exact .inr ⟨pos, s, rfl, rfl, h⟩
  | cons id actions ih =>
    rw [List.foldlM_cons, List.foldlM_cons]
    by_cases hid : id ∈ pos.offers t L
    · cases h with
      | ended => exact hid.elim
      | @after taken k z hk htracks =>
        obtain ⟨s', hs', hmatches⟩ := (Matches.after hk htracks).taken_of_offers hd hL hid
        rw [hs', Position.take, if_pos hid]
        exact ih hmatches
    · have hnone : Position.take t L pos id = none := by
        cases pos with
        | ended => rfl
        | after taken => rw [Position.take, if_neg hid]
      rw [hnone, h.taken_eq_none hd hL hid]
      exact .inl ⟨rfl, rfl⟩

end Matches

end Alphabet
end CallChain
