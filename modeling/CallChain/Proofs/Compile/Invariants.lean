import CallChain.Proofs.Automaton.Relabelling
import CallChain.Proofs.Compile.Letters
import CallChain.Proofs.Compile.Result

/-!
# Invariants of compiled automata

What holds of every compiled automaton, whatever it was compiled from (`CompiledInvariants`): its
states stand in canonical order, none but the initial one is without transitions, terminators end
the chain, and global actions are possible everywhere. A global action that is no terminator and has
a name that the grammar does not use stays in its state, since the loop it got is never taken away.

The facts are shown for the states as they are kept, and carried over to the numbered ones.

* `compile_invariants`: a compiled automaton has them.
-/

namespace CallChain

namespace Alphabet

variable {t : ActionTable} {d : Dfa} {k : StateId} {id : ActionId} {s : Successor}

/-! ### States that are kept -/

/-- A terminator ends the chain. -/
theorem eq_terminal_of_next (hterminator : t.holds (·.isTerminator) id = true)
    (h : (assembled t d).next k id = some s) : s = .terminal := by
  have hmem := wellFormed_assembled.next_eq_some_iff.1 h
  rcases out_assembled_cases (t := t) (d := d) k with hout | ⟨q, hout⟩
  · rw [hout] at hmem
    cases hmem
  · rw [hout] at hmem
    obtain ⟨action, q', hget, -, rfl⟩ := mem_assembledOut.1 hmem
    rw [ActionTable.holds, hget] at hterminator
    exact successorOn_terminator hterminator

theorem exists_kept (hk : k.index < (assembled t d).stateCount) :
    ∃ q ∈ d.openStates, d.openStates[k.index]? = some q := by
  rw [stateCount_assembled] at hk
  exact ⟨_, List.getElem_mem hk, List.getElem?_eq_getElem hk⟩

section Chain

variable {L : Language SymbolKind} (hd : (ofTable t).Represents d L) (hL : IsChain L)

include hd hL

/-- Only the initial state is kept without transitions. -/
theorem exists_next_of_ne_initial (hk : k.index < (chainAutomaton t d).stateCount)
    (hne : k ≠ (chainAutomaton t d).initial) : ∃ id s, (chainAutomaton t d).next k id = some s := by
  obtain ⟨z, hmem, hz⟩ := exists_kept hk
  have hother : z ≠ ((ofTable t).saturate t d).initial := by
    rintro rfl
    -- the initial state stands first, and no state stands at two places
    have hfirst : ((ofTable t).saturate t d).openStates[0]? =
        some ((ofTable t).saturate t d).initial := rfl
    have hindex := (List.getElem?_inj (List.getElem?_eq_some_iff.1 hz).1
      Dfa.nodup_openStates).1 (hz.trans hfirst.symm)
    apply hne
    cases k
    cases hindex
    rfl
  obtain ⟨s, z', hz'⟩ := (Dfa.mem_openStates.1 hmem).resolve_left hother
  obtain ⟨id, hid, rfl⟩ := exists_symbol_of_next_saturate hd hL hz'
  obtain ⟨action, hget⟩ := ActionTable.mem_ids.1 hid
  exact ⟨id, _, (next_assembled hz).2 ⟨action, z', hget, hz', rfl⟩⟩

omit hL in
/-- A global action is possible everywhere. -/
theorem exists_next_of_global (hk : k.index < (chainAutomaton t d).stateCount)
    (hglobal : t.holds (·.isGlobal) id = true) :
    ∃ s, (chainAutomaton t d).next k id = some s := by
  obtain ⟨z, hmem, hz⟩ := exists_kept hk
  obtain ⟨z', hz'⟩ := exists_next_global hd (lt_size_of_mem_openStates hd hmem) hglobal
  obtain ⟨action, hget, -⟩ := ActionTable.holds_iff.1 hglobal
  exact ⟨_, (next_assembled hz).2 ⟨action, z', hget, hz', rfl⟩⟩

/-- A global action that is no terminator and that no chain takes stays in its state. -/
theorem next_eq_self (hk : k.index < (chainAutomaton t d).stateCount)
    (hglobal : t.holds (·.isGlobal) id = true) (hterminator : t.holds (·.isTerminator) id = false)
    (huntaken : ∀ u, u ++ [.action id] ∉ L) :
    (chainAutomaton t d).next k id = some (.state k) := by
  obtain ⟨z, hmem, hz⟩ := exists_kept hk
  obtain ⟨z', hz'⟩ := exists_next_global hd (lt_size_of_mem_openStates hd hmem) hglobal
  have hself := next_untaken hd hL (ActionTable.mem_ids_of_holds hglobal) huntaken hz'
  rw [hself] at hz'
  obtain ⟨action, hget, -⟩ := ActionTable.holds_iff.1 hglobal
  have hplace : ((ofTable t).saturate t d).openStates.idxOf z = k.index := by
    obtain ⟨hlt, rfl⟩ := List.getElem?_eq_some_iff.1 hz
    exact Dfa.nodup_openStates.idxOf_getElem _ hlt
  rw [ActionTable.holds, hget] at hterminator
  rw [next_assembled hz]
  refine ⟨action, z, hget, hz', ?_⟩
  rw [successorOn_kept hterminator hmem, hplace]

end Chain

end Alphabet

/-! ### Compiled automata -/

/-- What holds of every automaton that a registry is compiled to over a table. -/
structure CompiledInvariants (r : Registry) (t : ActionTable) (A : Automaton) : Prop where
  table_eq : A.table = t
  initial_eq : A.initial = ⟨0⟩
  /-- The canonical numbering covers every state, and the number of a state is its index. -/
  numbered : ∃ n, A.numbering = .ok n ∧ n.size = A.stateCount ∧
    ∀ q : StateId, q.index < A.stateCount → n.number q = .ok q.index
  /-- A state other than the initial one has transitions, and on terminators they end the chain. -/
  listed : ∀ q : StateId, q.index < A.stateCount → ∃ ts, A.transitions q = .ok ts ∧
    (q ≠ A.initial → ts ≠ []) ∧
    ∀ step ∈ ts, t.holds (·.isTerminator) step.action = true → step.successor = .terminal
  global : ∀ q : StateId, q.index < A.stateCount → ∀ id, t.holds (·.isGlobal) id = true →
    ∃ s, A.successor? q id = .ok (some s)
  /-- A global action with a name that the grammar does not use stays in its state. -/
  loops : ∀ q : StateId, q.index < A.stateCount → ∀ id action, t.get? id = some action →
    action.isGlobal = true → action.isTerminator = false → ¬r.Uses action.name →
      A.successor? q id = .ok (some (.state q))

/-- Each state of a canonical automaton has its index as its number. -/
theorem Automaton.number_canonical {a : Automaton} (ha : a.WellFormed) {q : StateId}
    (hq : q.index < a.canonical.stateCount) :
    Numbering.number ⟨a.canonical.order⟩ q = .ok q.index := by
  have hmem : q ∈ a.canonical.order := by
    rw [order_canonical ha]
    exact mem_stateIds.2 hq
  have hindex : a.canonical.stateIds.idxOf q = q.index := by
    have hlt : q.index < (List.range a.canonical.stateCount).length := by rwa [List.length_range]
    have hrange := List.nodup_range.idxOf_getElem q.index hlt
    rw [List.getElem_range] at hrange
    rw [stateIds, ← hrange]
    exact idxOf_map fun i _ heq => StateId.mk.inj heq
  rw [number_eq hmem, order_canonical ha, hindex]

section Numbered

variable {t : ActionTable} {d : Dfa} {L : Language SymbolKind}
  (hd : (Alphabet.ofTable t).Represents d L) (hL : IsChain L) {q : StateId}
  (hq : q.index < (Alphabet.chainAutomaton t d).canonical.stateCount)

include hd hL hq

/-- The transitions of a numbered state. -/
theorem listed_canonical : ∃ ts, (Alphabet.chainAutomaton t d).canonical.transitions q = .ok ts ∧
    (q ≠ (Alphabet.chainAutomaton t d).canonical.initial → ts ≠ []) ∧
    ∀ step ∈ ts, t.holds (·.isTerminator) step.action = true → step.successor = .terminal := by
  have hwf := Alphabet.wellFormed_assembled (t := t) (d := (Alphabet.ofTable t).saturate t d)
  have hcanonical := Automaton.wellFormed_canonical hwf
  obtain ⟨k, hk, hplace⟩ := Automaton.exists_place_eq (Automaton.stateCount_canonical ▸ hq)
  refine ⟨_, Automaton.transitions_eq hcanonical hq, fun hne => ?_,
    fun step hstep hterminator => ?_⟩
  · have hother : k ≠ (Alphabet.chainAutomaton t d).initial := by
      rintro rfl
      exact hne (hplace.symm.trans Automaton.place_initial)
    obtain ⟨id, s, hs⟩ := Alphabet.exists_next_of_ne_initial hd hL
      (Automaton.index_lt_of_mem_order hwf hk) hother
    have hnext : (Alphabet.chainAutomaton t d).canonical.next q id =
        some (s.rename (Alphabet.chainAutomaton t d).place) := by
      rw [← hplace, Automaton.next_canonical hwf hk, hs, Option.map_some]
    refine List.ne_nil_of_mem (a := ⟨q, id, s.rename (Alphabet.chainAutomaton t d).place⟩) ?_
    exact Automaton.mem_inActionOrder.2 ⟨rfl, hcanonical.next_eq_some_iff.1 hnext⟩
  · have hnext := Automaton.next_of_mem_inActionOrder hcanonical hstep
    rw [← hplace, Automaton.next_canonical hwf hk, Option.map_eq_some_iff] at hnext
    obtain ⟨s, hs, hsuccessor⟩ := hnext
    rw [← hsuccessor, Alphabet.eq_terminal_of_next hterminator hs]
    rfl

omit hL in
theorem global_canonical {id : ActionId} (hglobal : t.holds (·.isGlobal) id = true) :
    ∃ s, (Alphabet.chainAutomaton t d).canonical.successor? q id = .ok (some s) := by
  have hwf := Alphabet.wellFormed_assembled (t := t) (d := (Alphabet.ofTable t).saturate t d)
  obtain ⟨k, hk, hplace⟩ := Automaton.exists_place_eq (Automaton.stateCount_canonical ▸ hq)
  obtain ⟨s, hs⟩ := Alphabet.exists_next_of_global hd
    (Automaton.index_lt_of_mem_order hwf hk) hglobal
  rw [Automaton.successor?_eq hq, ← hplace, Automaton.next_canonical hwf hk, hs]
  exact ⟨_, rfl⟩

theorem loop_canonical {id : ActionId} (hglobal : t.holds (·.isGlobal) id = true)
    (hterminator : t.holds (·.isTerminator) id = false)
    (huntaken : ∀ u, u ++ [.action id] ∉ L) :
    (Alphabet.chainAutomaton t d).canonical.successor? q id = .ok (some (.state q)) := by
  have hwf := Alphabet.wellFormed_assembled (t := t) (d := (Alphabet.ofTable t).saturate t d)
  obtain ⟨k, hk, hplace⟩ := Automaton.exists_place_eq (Automaton.stateCount_canonical ▸ hq)
  have hself := Alphabet.next_eq_self hd hL
    (Automaton.index_lt_of_mem_order hwf hk) hglobal hterminator huntaken
  rw [Automaton.successor?_eq hq, ← hplace, Automaton.next_canonical hwf hk, hself]
  rfl

end Numbered

/-- Every compiled automaton has the invariants. -/
theorem compile_invariants {r : Registry} {t : ActionTable} {A : Automaton}
    (h : (r.compile t).1 = .ok A) : CompiledInvariants r t A := by
  obtain ⟨compiled, d, hmemo, hrefs, hd, rfl⟩ := exists_of_compile_eq_ok h
  have hchain := isChain_root (r := r) (t := t) (environment t compiled)
  have hwf := Alphabet.wellFormed_assembled (t := t) (d := (Alphabet.ofTable t).saturate t d)
  refine ⟨rfl, rfl, ?_, ?_, ?_, ?_⟩
  · refine ⟨_, Automaton.numbering_eq (Automaton.wellFormed_canonical hwf), ?_, ?_⟩
    · rw [Automaton.order_canonical hwf, Numbering.size, Automaton.stateIds, List.length_map,
        List.length_range]
    · exact fun q hq => Automaton.number_canonical hwf hq
  · exact fun q hq => listed_canonical hd hchain hq
  · exact fun q hq id hglobal => global_canonical hd hq hglobal
  · intro q hq id action hget hglobal hterminator hunused
    refine loop_canonical hd hchain hq ?_ ?_ ?_
    · rw [ActionTable.holds, hget]
      exact hglobal
    · rw [ActionTable.holds, hget]
      exact hterminator
    · intro u hu
      exact hunused (hmemo.uses_of_mem hrefs hu (List.mem_append_right _ (.head _)) hget)

/-- The actions of a sum that can be logged at any time. -/
def loggedActions : ActionTable :=
  ⟨[.ofName "add", { Action.ofName "total" with isTerminator := true },
    { Action.ofName "log" with isGlobal := true }], [⟨0⟩, ⟨2⟩, ⟨1⟩], by decide, by decide⟩

/-- The grammar `add* total`, which does not mention the log: its action stays in the only state. -/
theorem compile_invariants_sums : ∃ A, (sums.compile loggedActions).1 = .ok A ∧
    A.states = #[[(⟨0⟩, .state ⟨0⟩), (⟨2⟩, .state ⟨0⟩), (⟨1⟩, .terminal)]] ∧
      CompiledInvariants sums loggedActions A := by
  have hstates : (sums.compile loggedActions).1.map Automaton.states =
      .ok #[[(⟨0⟩, .state ⟨0⟩), (⟨2⟩, .state ⟨0⟩), (⟨1⟩, .terminal)]] := by decide +kernel
  cases hcompile : (sums.compile loggedActions).1 with
  | error e =>
    rw [hcompile] at hstates
    cases hstates
  | ok A =>
    rw [hcompile] at hstates
    exact ⟨A, rfl, Except.ok.inj hstates, compile_invariants hcompile⟩

end CallChain
