import CallChain.Proofs.Compile.Assembly
import CallChain.Proofs.Finite.Canonical

/-!
# Positions in the automaton of a chain language

An automaton without anchors whose language is prefix-closed is saturated and assembled into a chain
automaton whose states are the positions in that language: one step keeps state and position
together (`Placed.take`), and so does every sequence of steps (`Placed.chain`). Saturating minimizes
first, so the shape of the automaton does not matter.

* `isChain_decoded`: the words of an automaton as a chain language.
* `saturate_eq_of_words_eq`: the result depends on the words alone.
* `saturate_assemble`: what the result offers.
-/

namespace CallChain

namespace Dfa

variable {d : Dfa} {state s : Nat} {w : List Nat}

/-- The symbols of a word have transitions. -/
theorem exists_next_of_mem (hw : w ∈ d.wordsFrom state) (hs : s ∈ w) :
    ∃ q t, d.next q s = some t := by
  induction w generalizing state with
  | nil => cases hs
  | cons symbol w ih =>
    obtain ⟨t, ht, hw⟩ := cons_mem_wordsFrom.1 hw
    rcases List.mem_cons.1 hs with rfl | hs
    · exact ⟨state, t, ht⟩
    · exact ih hw hs

end Dfa

namespace Alphabet

variable {t : ActionTable} {d e : Dfa} {L : Language SymbolKind} {pos : Position}
  {id : ActionId} {s : Successor}

/-! ### Chain languages of automata -/

/-- An automaton without transitions on anchors whose words are prefix-closed, and that has words,
accepts a language of chains. -/
theorem isChain_decoded (hanchors : ∀ q mark, d.next q ((ofTable t).anchorSymbol mark) = none)
    (hword : ∃ w, d.accepts w = true)
    (hclosed : ∀ u v, d.accepts (u ++ v) = true → d.accepts u = true) :
    IsChain ((ofTable t).decoded d) where
  nil_mem := by
    obtain ⟨w, hw⟩ := hword
    exact hclosed [] w hw
  of_append u v huv := by
    apply hclosed _ (v.map (ofTable t).code)
    rw [← List.map_append]
    exact huv
  action w hw k hk := by
    cases k with
    | action id => exact ⟨id, rfl⟩
    | anchor mark =>
      obtain ⟨q, q', hnext⟩ := Dfa.exists_next_of_mem hw (List.mem_map_of_mem hk)
      rw [code_anchor, hanchors] at hnext
      cases hnext

/-- Saturating depends on the words alone. -/
theorem saturate_eq_of_words_eq (hd : d.WellFormed) (he : e.WellFormed)
    (halphabet : e.alphabet = d.alphabet) (hwords : e.words = d.words) (hword : ∃ w, w ∈ d.words) :
    (ofTable t).saturate t e = (ofTable t).saturate t d := by
  obtain ⟨w, hw⟩ := hword
  rw [saturate, saturate, Dfa.minimize_eq_of_words_eq hd he halphabet hwords hw]

/-! ### Numbered positions -/

variable (t d) in
/-- A state of the numbered chain automaton that stands for a state at a position. -/
def Placed (pos : Position) (s : Successor) : Prop :=
  ∃ o, Matches t d pos o ∧ (∀ q, o = .state q → q ∈ (chainAutomaton t d).order) ∧
    s = o.rename (chainAutomaton t d).place

theorem placed_initial (hd : d.WellFormed) :
    Placed t d (.after []) (.state (chainAutomaton t d).canonical.initial) := by
  refine ⟨.state ⟨0⟩, matches_initial hd, ?_, ?_⟩
  · rintro q ⟨⟩
    exact Automaton.initial_mem_order
  · show _ = Successor.state ((chainAutomaton t d).place (chainAutomaton t d).initial)
    rw [Automaton.place_initial]
    rfl

theorem Placed.exists (h : Placed t d pos s) : (chainAutomaton t d).canonical.Exists s := by
  obtain ⟨o, -, horder, rfl⟩ := h
  exact Automaton.exists_rename_place horder

theorem Placed.eq_terminal_iff (h : Placed t d pos s) : s = .terminal ↔ pos = .ended := by
  obtain ⟨o, hmatches, -, rfl⟩ := h
  cases hmatches <;> simp [Successor.rename]

section Chain

variable (hd : (ofTable t).Represents d L) (hL : IsChain L)

include hd hL

theorem Placed.offers_eq (h : Placed t d pos s) :
    (chainAutomaton t d).canonical.offers s = pos.offers t L := by
  ext id
  rw [Automaton.mem_offers_iff h.exists]
  obtain ⟨o, hmatches, horder, rfl⟩ := h
  rw [Automaton.taken_canonical wellFormed_assembled horder, ← hmatches.offers_iff hd hL]
  simp

/-- An action that is offered leads to the next position, any other nowhere. -/
theorem Placed.take (h : Placed t d pos s) (id : ActionId) :
    ∃ next, (chainAutomaton t d).canonical.take s id = .ok next ∧
      Option.Rel (Placed t d) (pos.take t L id) next := by
  refine ⟨_, Automaton.take_eq h.exists id, ?_⟩
  obtain ⟨o, hmatches, horder, rfl⟩ := h
  rw [Automaton.taken_canonical wellFormed_assembled horder]
  by_cases hid : id ∈ pos.offers t L
  · -- the step ends the chain, or leads to a state that matches the next position
    cases hmatches with
    | ended => exact hid.elim
    | @after taken k z hk htracks =>
      obtain ⟨o', ho', hmatches'⟩ := (Matches.after hk htracks).taken_of_offers hd hL hid
      rw [Position.take, if_pos hid, ho', Option.map_some]
      refine .some ⟨o', hmatches', ?_, rfl⟩
      rintro q rfl
      exact Automaton.mem_order_of_next wellFormed_assembled (horder k rfl) ho'
  · have hnone : pos.take t L id = none := by
      cases pos with
      | ended => rfl
      | after taken => rw [Position.take, if_neg hid]
    rw [hnone, hmatches.taken_eq_none hd hL hid]
    exact .none

/-- Actions one after the other lead from position to position, or nowhere at all. -/
theorem Placed.chain (h : Placed t d pos s) (actions : List ActionId) :
    ∃ result, (chainAutomaton t d).canonical.chain s actions = .ok result ∧
      Option.Rel (Placed t d) (actions.foldlM (Position.take t L) pos) result := by
  induction actions generalizing pos s with
  | nil => exact ⟨some s, rfl, .some h⟩
  | cons id actions ih =>
    obtain ⟨next, htake, hrel⟩ := h.take hd hL id
    rw [Automaton.chain, htake, List.foldlM_cons]
    -- the first action leads nowhere on either side, or to a state at the next position
    generalize pos.take t L id = pos' at hrel ⊢
    cases hrel with
    | none => exact ⟨none, rfl, .none⟩
    | some hnext => exact ih hnext

end Chain

/-- Saturating and assembling is exact. The automaton that is made of a prefix-closed language of
actions offers after any actions what may be taken at the position that they lead to, ends where
that position is the end of the chain, and is the same for all automata with this language. -/
theorem saturate_assemble (hd : d.WellFormed) (halphabet : d.alphabet = (ofTable t).size)
    (hanchors : ∀ q mark, d.next q ((ofTable t).anchorSymbol mark) = none)
    (hword : ∃ w, d.accepts w = true)
    (hclosed : ∀ u v, d.accepts (u ++ v) = true → d.accepts u = true) :
    ∃ A, ((ofTable t).saturated t d >>= (ofTable t).assemble t) = .ok A ∧
      (∀ actions, ∃ result, A.chain (.state A.initial) actions = .ok result ∧
        result.map A.offers = (Position.afterAll t ((ofTable t).decoded d) actions).map
          (Position.offers t ((ofTable t).decoded d)) ∧
        (result = some .terminal ↔
          Position.afterAll t ((ofTable t).decoded d) actions = some .ended)) ∧
      ∀ e : Dfa, e.WellFormed → e.alphabet = d.alphabet →
        (∀ w, e.accepts w = d.accepts w) →
        ((ofTable t).saturated t e >>= (ofTable t).assemble t) = .ok A := by
  have hrepresents := represents_decoded hd halphabet
  have hchain := isChain_decoded hanchors hword hclosed
  have hmade {e : Dfa} (he : e.WellFormed) (halphabet : e.alphabet = (ofTable t).size) :
      ((ofTable t).saturated t e >>= (ofTable t).assemble t) =
        .ok (chainAutomaton t e).canonical := by
    rw [saturated_eq he halphabet]
    show Except.bind (.ok ((ofTable t).saturate t e)) ((ofTable t).assemble t) = _
    rw [Except.bind, assemble_eq (minimal_saturate he).toWellFormed]
  refine ⟨_, hmade hd halphabet, fun actions => ?_, fun e he halphabet' hsame => ?_⟩
  · obtain ⟨result, hresult, hrel⟩ :=
      (placed_initial (t := t) hd).chain hrepresents hchain actions
    refine ⟨result, hresult, ?_⟩
    change Option.Rel _ (Position.afterAll t ((ofTable t).decoded d) actions) _ at hrel
    generalize Position.afterAll t ((ofTable t).decoded d) actions = pos at hrel ⊢
    cases hrel with
    | none => exact ⟨rfl, by simp⟩
    | some hplaced =>
      refine ⟨congrArg some (hplaced.offers_eq hrepresents hchain), ?_⟩
      rw [Option.some_inj, Option.some_inj]
      exact hplaced.eq_terminal_iff
  · rw [hmade he (halphabet'.trans halphabet), chainAutomaton, chainAutomaton,
      saturate_eq_of_words_eq hd he halphabet' (Dfa.words_eq_iff.2 hsame) hword]

/-- The action `total` ends a chain, and `help` is offered everywhere. -/
def flaggedActions : ActionTable where
  actions := [.ofName "add", { Action.ofName "total" with isTerminator := true },
    { Action.ofName "help" with isGlobal := true }]
  order := [⟨0⟩, ⟨2⟩, ⟨1⟩]
  order_eq := by decide
  no_clash := by decide

/-- Any number of times `add`, and then perhaps `total`; even and odd numbers have a state each. -/
def evenOdd : Dfa where
  alphabet := 6
  rows := #[⟨true, [some 1, some 2, none, none, none, none]⟩,
    ⟨true, [some 0, some 2, none, none, none, none]⟩,
    ⟨true, [none, none, none, none, none, none]⟩]
  initial := 0

theorem saturate_assemble_evenOdd : ∃ A,
    ((ofTable flaggedActions).saturated flaggedActions evenOdd >>=
      (ofTable flaggedActions).assemble flaggedActions) = .ok A ∧
    A.states = #[[(⟨0⟩, .state ⟨0⟩), (⟨2⟩, .state ⟨0⟩), (⟨1⟩, .terminal)]] ∧
    ∀ actions, ∃ result, A.chain (.state A.initial) actions = .ok result ∧
      result.map A.offers =
        (Position.afterAll flaggedActions ((ofTable flaggedActions).decoded evenOdd) actions).map
          (Position.offers flaggedActions ((ofTable flaggedActions).decoded evenOdd)) := by
  have hwf : evenOdd.WellFormed := Dfa.isWellFormed_iff.1 (by decide +kernel)
  have hanchors : ∀ q mark,
      evenOdd.next q ((ofTable flaggedActions).anchorSymbol mark) = none := by
    intro q mark
    rcases Nat.lt_or_ge q 3 with hlt | hge
    · have hall : ∀ q < 3, ∀ mark ∈ Anchor.all,
          evenOdd.next q ((ofTable flaggedActions).anchorSymbol mark) = none := by decide +kernel
      exact hall q hlt mark (by cases mark <;> decide)
    · have hmissing : evenOdd.targets q = [] := Dfa.targets_eq_nil hge
      rw [Dfa.next, hmissing]
      rfl
  have hclosed : ∀ u v, evenOdd.accepts (u ++ v) = true → evenOdd.accepts u = true := by
    intro u v huv
    obtain ⟨q, hq, -⟩ := Dfa.append_mem_wordsFrom.1 (show u ++ v ∈ evenOdd.words from huv)
    have haccepting : ∀ q < 3, evenOdd.isAccepting q = true := by decide +kernel
    exact Dfa.mem_wordsFrom.2 ⟨q, hq, haccepting q (hwf.run_lt hwf.initial_lt hq)⟩
  obtain ⟨A, hA, hchain, -⟩ :=
    saturate_assemble hwf (by decide +kernel) hanchors ⟨[], by decide +kernel⟩ hclosed
  have hstates : ((ofTable flaggedActions).saturated flaggedActions evenOdd >>=
      (ofTable flaggedActions).assemble flaggedActions).map Automaton.states =
      .ok #[[(⟨0⟩, .state ⟨0⟩), (⟨2⟩, .state ⟨0⟩), (⟨1⟩, .terminal)]] := by decide +kernel
  rw [hA] at hstates
  refine ⟨A, hA, Except.ok.inj hstates, fun actions => ?_⟩
  obtain ⟨result, hresult, hoffers, -⟩ := hchain actions
  exact ⟨result, hresult, hoffers⟩

end Alphabet
end CallChain
