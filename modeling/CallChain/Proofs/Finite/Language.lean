import CallChain.Finite.Dfa
import Mathlib.Computability.Language

/-!
# The words of a deterministic automaton

`Dfa.words` is the language of an automaton, `Dfa.wordsFrom` what it accepts from a state on.
`Dfa.WellFormed` says that every state has one entry per symbol and that all transitions lead to
states; it is what `Dfa.isWellFormed` decides.

* `append_mem_wordsFrom`: a word is accepted where its second part is, after its first part.
* `rel_next_of_wordsFrom_eq`: from states with the same words a symbol leads to such states.
* `WellFormed.lt_alphabet_of_mem`: words consist of symbols of the alphabet.
* `isWellFormed_iff`: the check decides the property.
-/

namespace CallChain.Dfa

variable (d : Dfa)

/-- The words that are accepted from a state on. -/
def wordsFrom (state : Nat) : Language Nat := {w | (d.run state w).any d.isAccepting = true}

/-- The language of an automaton. -/
def words : Language Nat := {w | d.accepts w = true}

variable {d} {state other symbol : Nat} {u v w : List Nat}

theorem words_eq : d.words = d.wordsFrom d.initial := rfl

theorem mem_wordsFrom :
    w ∈ d.wordsFrom state ↔ ∃ t, d.run state w = some t ∧ d.isAccepting t = true := by
  show (d.run state w).any d.isAccepting = true ↔ _
  cases d.run state w <;> simp

theorem nil_mem_wordsFrom : [] ∈ d.wordsFrom state ↔ d.isAccepting state = true := by
  simp [mem_wordsFrom, run]

/-- A word is accepted where its second part is, after its first part. -/
theorem append_mem_wordsFrom :
    u ++ v ∈ d.wordsFrom state ↔ ∃ t, d.run state u = some t ∧ v ∈ d.wordsFrom t := by
  simp only [mem_wordsFrom, run_append, Option.bind_eq_some_iff]
  constructor
  · rintro ⟨s, ⟨t, hu, hv⟩, hs⟩
    exact ⟨t, hu, s, hv, hs⟩
  · rintro ⟨t, hu, s, hv, hs⟩
    exact ⟨s, ⟨t, hu, hv⟩, hs⟩

theorem run_singleton : d.run state [symbol] = d.next state symbol := by
  simp [run]

theorem cons_mem_wordsFrom :
    symbol :: w ∈ d.wordsFrom state ↔ ∃ t, d.next state symbol = some t ∧ w ∈ d.wordsFrom t := by
  rw [← run_singleton]
  show [symbol] ++ w ∈ d.wordsFrom state ↔ _
  exact append_mem_wordsFrom

/-- From states with the same words, be they of one automaton or of two, a symbol leads to states
with the same words, as long as some word is accepted wherever it leads. -/
theorem rel_next_of_wordsFrom_eq {e : Dfa} {p q : Nat} (h : d.wordsFrom p = e.wordsFrom q)
    (hlive : ∀ t, d.next p symbol = some t → ∃ w, w ∈ d.wordsFrom t)
    (hlive' : ∀ t, e.next q symbol = some t → ∃ w, w ∈ e.wordsFrom t) :
    Option.Rel (fun t t' => d.wordsFrom t = e.wordsFrom t') (d.next p symbol)
      (e.next q symbol) := by
  have hiff (w : List Nat) : symbol :: w ∈ d.wordsFrom p ↔ symbol :: w ∈ e.wordsFrom q := by
    rw [h]
  simp only [cons_mem_wordsFrom] at hiff
  cases ht : d.next p symbol with
  | none =>
    cases ht' : e.next q symbol with
    | none => exact .none
    | some t' =>
      -- a word that is accepted behind the only target would begin with the symbol
      obtain ⟨w, hw⟩ := hlive' t' ht'
      obtain ⟨t, ht₁, -⟩ := (hiff w).2 ⟨t', ht', hw⟩
      rw [ht] at ht₁
      cases ht₁
  | some t =>
    obtain ⟨w, hw⟩ := hlive t ht
    obtain ⟨t', ht', -⟩ := (hiff w).1 ⟨t, ht, hw⟩
    rw [ht']
    apply Option.Rel.some
    ext w
    simpa [ht, ht'] using hiff w

/-! ### Transitions -/

theorem next_eq_some_iff : d.next state symbol = some other ↔
    (d.targets state)[symbol]? = some (some other) := by
  unfold next
  cases (d.targets state)[symbol]? <;> simp

theorem mem_edges {edge : Nat × Nat} :
    edge ∈ d.edges state ↔ d.next state edge.1 = some edge.2 := by
  obtain ⟨symbol, target⟩ := edge
  simp only [edges, List.mem_filterMap, Prod.exists, List.mem_zipIdx_iff_getElem?,
    Option.map_eq_some_iff, Prod.mk.injEq, next_eq_some_iff]
  constructor
  · rintro ⟨_, _, h, _, rfl, rfl, rfl⟩
    exact h
  · intro h
    exact ⟨some target, symbol, h, target, rfl, rfl, rfl⟩

theorem mem_successors :
    other ∈ d.successors state ↔ ∃ symbol, d.next state symbol = some other := by
  simp only [successors, List.mem_filterMap, id_eq, exists_eq_right, next_eq_some_iff]
  exact List.mem_iff_getElem?

theorem hasTransitions_iff :
    d.hasTransitions state = true ↔ ∃ symbol other, d.next state symbol = some other := by
  rw [hasTransitions, Bool.not_eq_true', List.isEmpty_eq_false_iff_exists_mem]
  simp only [mem_successors]
  exact ⟨fun ⟨t, s, h⟩ => ⟨s, t, h⟩, fun ⟨s, t, h⟩ => ⟨t, s, h⟩⟩

/-! ### Well-formed automata -/

variable (d) in
/-- Each state has one entry per symbol, and all transitions lead to states. -/
structure WellFormed : Prop where
  initial_lt : d.initial < d.size
  length_targets : ∀ state < d.size, (d.targets state).length = d.alphabet
  next_lt : ∀ {state symbol other}, d.next state symbol = some other → other < d.size

theorem targets_eq (h : state < d.rows.size) : d.targets state = d.rows[state].targets := by
  have : d.rows[state]? = some d.rows[state] := Array.getElem?_eq_getElem h
  simp [targets, this]

theorem targets_eq_nil (h : d.size ≤ state) : d.targets state = [] := by
  have : d.rows[state]? = none := Array.getElem?_eq_none h
  simp [targets, this]

/-- Only states have transitions. -/
theorem lt_size_of_next (h : d.next state symbol = some other) : state < d.size := by
  by_contra hlt
  rw [next, targets_eq_nil (Nat.le_of_not_lt hlt)] at h
  simp at h

theorem lt_size_of_isAccepting (h : d.isAccepting state = true) : state < d.size := by
  by_contra hlt
  have : d.rows[state]? = none := Array.getElem?_eq_none (Nat.le_of_not_lt hlt)
  rw [isAccepting, this] at h
  simp at h

theorem isWellFormed_iff : d.isWellFormed = true ↔ d.WellFormed := by
  have hrows : (d.rows.all fun row => row.targets.length == d.alphabet &&
      row.targets.all fun target => target.all (· < d.size)) = true ↔
      ∀ q, (h : q < d.size) → (d.targets q).length = d.alphabet ∧
        ∀ target ∈ d.targets q, ∀ t, target = some t → t < d.size := by
    rw [Array.all_eq_true]
    refine forall₂_congr fun q h => ?_
    rw [targets_eq h]
    simp [Option.all_eq_true_iff_get, Option.forall]
  simp only [isWellFormed, Bool.and_eq_true, decide_eq_true_eq, hrows]
  constructor
  · rintro ⟨hinit, hall⟩
    refine ⟨hinit, fun q h => (hall q h).1, fun {q s t} ht => ?_⟩
    have hq := lt_size_of_next ht
    exact (hall q hq).2 (some t) (List.mem_of_getElem? (next_eq_some_iff.1 ht)) t rfl
  · intro h
    refine ⟨h.initial_lt, fun q hq => ⟨h.length_targets q hq, ?_⟩⟩
    rintro _ hmem t rfl
    obtain ⟨s, hs⟩ := List.mem_iff_getElem?.1 hmem
    exact h.next_lt (next_eq_some_iff.2 hs)

namespace WellFormed

variable (h : d.WellFormed)

include h

theorem symbol_lt (ht : d.next state symbol = some other) : symbol < d.alphabet := by
  have hq := lt_size_of_next ht
  have := (List.getElem?_eq_some_iff.1 (next_eq_some_iff.1 ht)).1
  rwa [h.length_targets state hq] at this

/-- A symbol of the alphabet has an entry. -/
theorem getElem?_targets (hstate : state < d.size) (hsymbol : symbol < d.alphabet) :
    (d.targets state)[symbol]? = some (d.next state symbol) := by
  rw [← h.length_targets state hstate] at hsymbol
  rw [next, List.getElem?_eq_getElem hsymbol, Option.join_some]

theorem targets_eq_map (hstate : state < d.size) :
    d.targets state = (List.range d.alphabet).map (d.next state) := by
  refine List.ext_getElem (by simpa using h.length_targets state hstate) fun symbol hs hs' => ?_
  have hsymbol : symbol < d.alphabet := by simpa using hs'
  have hentry := h.getElem?_targets hstate hsymbol
  rw [List.getElem?_eq_getElem hs] at hentry
  rw [Option.some.inj hentry, List.getElem_map, List.getElem_range]

theorem getElem?_targets_eq_none (hstate : state < d.size) (hsymbol : d.alphabet ≤ symbol) :
    (d.targets state)[symbol]? = none := by
  rw [← h.length_targets state hstate] at hsymbol
  exact List.getElem?_eq_none hsymbol

theorem run_lt (hstate : state < d.size) (hw : d.run state w = some other) : other < d.size := by
  induction w generalizing state with
  | nil =>
    cases hw
    exact hstate
  | cons symbol w ih =>
    obtain ⟨t, ht, hw⟩ := Option.bind_eq_some_iff.1 hw
    exact ih (h.next_lt ht) hw

theorem lt_alphabet_of_run (hw : d.run state w = some other) :
    ∀ symbol ∈ w, symbol < d.alphabet := by
  induction w generalizing state with
  | nil => simp
  | cons symbol w ih =>
    obtain ⟨t, ht, hw⟩ := Option.bind_eq_some_iff.1 hw
    intro s hs
    rcases List.mem_cons.1 hs with rfl | hs
    · exact h.symbol_lt ht
    · exact ih hw s hs

/-- Words consist of symbols of the alphabet. -/
theorem lt_alphabet_of_mem (hw : w ∈ d.wordsFrom state) : ∀ symbol ∈ w, symbol < d.alphabet := by
  obtain ⟨t, ht, -⟩ := mem_wordsFrom.1 hw
  exact h.lt_alphabet_of_run ht

end WellFormed

end CallChain.Dfa
