import CallChain.Compile.Scope
import CallChain.Proofs.Alphabet
import CallChain.Proofs.Finite.Checked
import CallChain.Proofs.Finite.Combinators
import CallChain.Proofs.Finite.Product
import CallChain.Proofs.Meaning

/-!
# The words of a closed scope

`Alphabet.Represents` relates an automaton to a language over actions and anchors. Closing the scope
of an automaton represents the closed language (`exists_closeScope`): a path through the closed
nodes is a way through the scope, told by the symbols that are left when the inner anchors are gone.

* `IsScopeLanguage.mem_words_iff`: the words that begin with a start anchor and hold no other.
* `exists_closeFrom`: the paths through a scope.
-/

namespace CallChain

namespace Alphabet

variable {t : ActionTable} {a : Alphabet} {d : Dfa} {L : Language SymbolKind}

/-! ### The words of a scope -/

variable (a) in
/-- An automaton with one state before the start anchor and one behind it. -/
structure IsScopeLanguage (d : Dfa) : Prop extends d.WellFormed where
  alphabet_eq : d.alphabet = a.size
  initial_eq : d.initial = 0
  isAccepting_eq : ∀ q, d.isAccepting q = (q == 1)
  next_eq : ∀ q s, d.next q s =
    if q = 1 ∧ s < a.size ∧ s ≠ a.anchorSymbol .start then some 1
    else if q = 0 ∧ s = a.anchorSymbol .start then some 1 else none

variable (a) in
theorem exists_scopeLanguage : ∃ d, a.scopeLanguage = .ok d ∧ a.IsScopeLanguage d := by
  have hstart : a.anchorSymbol .start < a.size := anchorSymbol_lt a .start
  have hpair : ((Dfa.nothing a.size).addState true).2.WellFormed :=
    (Dfa.wellFormed_single a.size false).addState true
  have hnone (q s : Nat) : ((Dfa.nothing a.size).addState true).2.next q s = none :=
    (Dfa.next_addState true).trans (Dfa.next_single a.size false)
  -- the first state is left on the start anchor
  let entered := ((Dfa.nothing a.size).addState true).2.setTarget 0 (a.anchorSymbol .start) (some 1)
  have hentered : entered.WellFormed := hpair.setTarget fun t ht => by
    cases ht
    exact Nat.one_lt_two
  have henter : ((Dfa.nothing a.size).addState true).2.setTransition 0 (a.anchorSymbol .start)
      (some 1) = .ok entered := Dfa.setTransition_eq hpair Nat.zero_lt_two hstart
  -- the second one is never left
  let inside := entered.symbols.filter (· ≠ a.anchorSymbol .start)
  have hinside {s : Nat} : s ∈ inside ↔ s < a.size ∧ s ≠ a.anchorSymbol .start := by
    rw [List.mem_filter, decide_eq_true_eq]
    exact and_congr_left fun _ => List.mem_range
  obtain ⟨d, hd, hrewired⟩ := Dfa.exists_foldlM_retarget (fun _ => some 1) inside (fun _ => rfl)
    (fun _ _ t ht => by
      cases ht
      exact Nat.one_lt_two) hentered Nat.one_lt_two fun s hs => (hinside.1 hs).1
  refine ⟨d, ?_, hrewired.toWellFormed, hrewired.alphabet_eq, hrewired.initial_eq, ?_, ?_⟩
  · unfold scopeLanguage
    rw [Dfa.retarget_const] at hd
    exact (congrArg (· >>= _) henter).trans hd
  · intro q
    rw [hrewired.isAccepting_eq, Dfa.isAccepting_setTarget]
    match q with
    | 0 => rfl
    | 1 => rfl
    | q + 2 => rfl
  · intro q s
    split
    next h => exact hrewired.next_touched q s (h.imp_right hinside.2)
    next h =>
      rw [hrewired.next_kept q s (mt (And.imp_right hinside.1) h),
        Dfa.next_setTarget hpair Nat.zero_lt_two hstart, hnone]

namespace IsScopeLanguage

variable (h : a.IsScopeLanguage d)

include h

theorem next_initial_ne (s : Nat) : d.next d.initial s ≠ some d.initial := by
  rw [h.initial_eq, h.next_eq, if_neg (by omega)]
  split <;> simp

/-- Behind the start anchor there is no other. -/
theorem mem_wordsFrom_one {v : List Nat} : v ∈ d.wordsFrom 1 ↔
    ∀ s ∈ v, s < a.size ∧ s ≠ a.anchorSymbol .start := by
  induction v with
  | nil => simp [Dfa.nil_mem_wordsFrom, h.isAccepting_eq]
  | cons s v ih =>
    rw [Dfa.cons_mem_wordsFrom, List.forall_mem_cons, ← ih, h.next_eq]
    simp

/-- The words that begin with a start anchor and hold no other. -/
theorem mem_words_iff {w : List Nat} : w ∈ d.words ↔
    ∃ v, w = a.anchorSymbol .start :: v ∧ ∀ s ∈ v, s < a.size ∧ s ≠ a.anchorSymbol .start := by
  rw [Dfa.words_eq, h.initial_eq]
  cases w with
  | nil => simp [Dfa.nil_mem_wordsFrom, h.isAccepting_eq]
  | cons s v =>
    rw [Dfa.cons_mem_wordsFrom, h.next_eq]
    simp [h.mem_wordsFrom_one]

end IsScopeLanguage

theorem scopeStart_eq (hd : d.WellFormed) (halphabet : d.alphabet = a.size) :
    a.scopeStart d = .ok (d.next d.initial (a.anchorSymbol .start)) :=
  Dfa.transition_eq hd hd.initial_lt (halphabet ▸ anchorSymbol_lt a .start)

/-! ### Closed nodes -/

section Closed

variable (a d) in
/-- Is the end anchor possible at a state? -/
def endsScope (q : Nat) : Bool := (d.next q (a.anchorSymbol .stop)).isSome

variable (a) in
/-- What is left of a transition in the closed scope. `skips` tells whether the inner anchor is
skipped. -/
def closedStep (skips : Bool) (edge : Nat × Nat) : Node :=
  if edge.1 < a.actionCount then ⟨[(.single edge.1, edge.2)], []⟩
  else if edge.1 = a.anchorSymbol .inner && skips then ⟨[], [edge.2]⟩
  else ⟨[], []⟩

variable (a d) in
/-- A state of the closed scope; `exit` is the node where words end. -/
def closedNode (exit : Nat) (skips : Bool) (q : Nat) : Node :=
  if a.endsScope d q then ⟨[], [exit]⟩
  else
    ⟨(d.edges q).flatMap fun edge => (a.closedStep skips edge).edges,
      exit :: (d.edges q).flatMap fun edge => (a.closedStep skips edge).silent⟩

variable (a d) in
/-- The states of an automaton with their anchors resolved, followed by the node where the scope
begins and the one where its words end. -/
def closedNodes (entry : Nat) : List Node :=
  d.states.map (a.closedNode d (d.size + 1) true) ++
    [a.closedNode d (d.size + 1) false entry, ⟨[], []⟩]

variable (a d) in
/-- The closed scope of an automaton whose scope begins at a state, with its silent steps. -/
def closedNfa (entry : Nat) : Nfa := ⟨d.alphabet, (a.closedNodes d entry).toArray⟩

variable {n : Nfa} {q q' exit entry node : Nat} {skips : Bool} {u w : List Nat}

theorem closeEdge_eq {edge : Nat × Nat} (hn : n.alphabet = a.size) (hnode : node < n.size)
    (hedge : edge.1 < a.size) :
    a.closeEdge node skips n edge = .ok (n.grow node (a.closedStep skips edge)) := by
  rw [closeEdge, isAnchor_eq hedge, ok_bind, closedStep]
  by_cases haction : edge.1 < a.actionCount
  · have hstop : (SymbolRange.single edge.1).stop ≤ n.alphabet := hn ▸ hedge
    have hfull : (SymbolRange.single edge.1).isEmpty = false := by
      simp [SymbolRange.isEmpty, SymbolRange.single]
    rw [decide_eq_false (Nat.not_le.2 haction), if_pos haction, Nfa.connected_eq hstop hnode,
      Nfa.connect_eq_grow hfull]
    rfl
  · rw [decide_eq_true (Nat.le_of_not_lt haction), if_neg haction]
    simp only [Bool.not_true, Bool.false_eq_true, if_false]
    split
    · rw [Nfa.connectedSilent_eq hnode, Nfa.connectSilent_eq_grow]
    · rw [Nfa.grow_blank]
      rfl

/-- The steps of a state are added to its node one after the other. -/
theorem closeState_eq (hd : d.WellFormed) (halphabet : d.alphabet = a.size)
    (hn : n.alphabet = a.size)
    (hnode : node < n.size) (hq : q < d.size) :
    a.closeState d exit skips n node q = .ok (n.grow node (a.closedNode d exit skips q)) := by
  have hstop : a.anchorSymbol .stop < d.alphabet := halphabet ▸ anchorSymbol_lt a .stop
  rw [closeState, Nfa.connectedSilent_eq hnode, ok_bind, Dfa.transition_eq hd hq hstop, ok_bind,
    Nfa.connectSilent_eq_grow, closedNode, endsScope]
  split
  · rfl
  · rw [Dfa.transitions_eq hq, ok_bind]
    rw [Nfa.foldlM_eq_grow (a.closedStep skips) fun m hm hsize edge hedge => ?_,
      Nfa.grow_grow]
    · rfl
    · refine closeEdge_eq (hm.trans hn) (by rw [hsize, Nfa.size_grow]; exact hnode) ?_
      exact halphabet ▸ hd.symbol_lt (Dfa.mem_edges.1 hedge)

theorem scopeNodes_eq (hd : d.WellFormed) (halphabet : d.alphabet = a.size)
    (hentry : entry < d.size) :
    a.scopeNodes d entry = .ok (a.closedNfa d entry) := by
  have hblank : (Nfa.ofAlphabet d.alphabet).addNodes (d.size + 2) = ⟨d.alphabet,
      ([] ++ List.replicate d.size (⟨[], []⟩ : Node) ++
        [(⟨[], []⟩ : Node), (⟨[], []⟩ : Node)]).toArray⟩ := by
    have hnodes : List.replicate (d.size + 2) (⟨[], []⟩ : Node) =
        List.replicate d.size ⟨[], []⟩ ++ [⟨[], []⟩, ⟨[], []⟩] := by
      rw [← List.replicate_append_replicate]
      rfl
    simp [Nfa.addNodes, Nfa.ofAlphabet, ← hnodes]
  have hstates := Nfa.foldlM_fill d.alphabet [] [⟨[], []⟩, ⟨[], []⟩]
    (fun n q => a.closeState d (d.size + 1) true n q q)
    (a.closedNode d (d.size + 1) true) d.size fun m hm hsize q hq => by
      rw [List.length_nil, Nat.zero_add] at hsize ⊢
      exact closeState_eq hd halphabet (hm.trans halphabet) (by rw [hsize]; omega) hq
  rw [scopeNodes, hblank, Dfa.states, hstates, ok_bind,
    closeState_eq hd halphabet halphabet (by simp [Nfa.size]) hentry]
  refine congrArg Except.ok (congrArg (Nfa.mk d.alphabet) ?_)
  rw [closedNodes, Dfa.states, List.nil_append, List.modify_toArray,
    modify_append_cons (by rw [List.length_map, List.length_range])]
  simp

/-! ### Paths through closed nodes -/

variable (a d) in
/-- A way through the states of a scope. No transition is taken where the scope can end. -/
def Passage : Nat → List Nat → Prop
  | _, [] => True
  | q, s :: u => a.endsScope d q = false ∧ (s < a.actionCount ∨ s = a.anchorSymbol .inner) ∧
      ∃ q', d.next q s = some q' ∧ Passage q' u

theorem mem_silent_closedNode : q' ∈ (a.closedNode d exit skips q).silent ↔
    q' = exit ∨ a.endsScope d q = false ∧ skips = true ∧
      d.next q (a.anchorSymbol .inner) = some q' := by
  have hstep (edge : Nat × Nat) : q' ∈ (a.closedStep skips edge).silent ↔
      skips = true ∧ edge = (a.anchorSymbol .inner, q') := by
    have hinner := actionCount_le_anchorSymbol a .inner
    unfold closedStep
    grind
  unfold closedNode
  cases a.endsScope d q
  · simp only [Bool.false_eq_true, if_false, List.mem_cons, List.mem_flatMap, hstep, true_and]
    refine or_congr_right ⟨?_, fun ⟨hskips, hnext⟩ => ⟨_, Dfa.mem_edges.2 hnext, hskips, rfl⟩⟩
    rintro ⟨_, hedge, hskips, rfl⟩
    exact ⟨hskips, Dfa.mem_edges.1 hedge⟩
  · simp

theorem mem_edges_closedNode {r : SymbolRange} : (r, q') ∈ (a.closedNode d exit skips q).edges ↔
    a.endsScope d q = false ∧ ∃ s < a.actionCount, d.next q s = some q' ∧ r = .single s := by
  have hstep (edge : Nat × Nat) : (r, q') ∈ (a.closedStep skips edge).edges ↔
      edge.1 < a.actionCount ∧ r = .single edge.1 ∧ q' = edge.2 := by
    unfold closedStep
    grind
  unfold closedNode
  cases a.endsScope d q
  · simp only [Bool.false_eq_true, if_false, List.mem_flatMap, hstep, true_and]
    constructor
    · rintro ⟨⟨s, _⟩, hedge, hs, rfl, rfl⟩
      exact ⟨s, hs, Dfa.mem_edges.1 hedge, rfl⟩
    · rintro ⟨s, hs, hnext, rfl⟩
      exact ⟨(s, q'), Dfa.mem_edges.2 hnext, hs, rfl, rfl⟩
  · simp

theorem size_closedNfa : (a.closedNfa d entry).size = d.size + 2 := by
  simp [closedNfa, closedNodes, Nfa.size, Dfa.states]

theorem node_state (hq : q < d.size) :
    (a.closedNfa d entry).nodes[q]? = some (a.closedNode d (d.size + 1) true q) := by
  have hlt : q < (d.states.map (a.closedNode d (d.size + 1) true)).length := by
    simpa [Dfa.states] using hq
  simp only [closedNfa, closedNodes, List.getElem?_toArray]
  rw [List.getElem?_append_left hlt, List.getElem?_map, Dfa.states, List.getElem?_range hq]
  rfl

theorem node_behind (i : Nat) : (a.closedNfa d entry).nodes[d.size + i]? =
    [a.closedNode d (d.size + 1) false entry, ⟨[], []⟩][i]? := by
  have hlength : (d.states.map (a.closedNode d (d.size + 1) true)).length = d.size := by
    simp [Dfa.states]
  simp only [closedNfa, closedNodes, List.getElem?_toArray]
  rw [List.getElem?_append_right (by omega), hlength, Nat.add_sub_cancel_left]

theorem wellFormed_closedNfa (hd : d.WellFormed) (ha : a.actionCount ≤ d.alphabet)
    (hentry : entry < d.size) : (a.closedNfa d entry).WellFormed := by
  -- every node is a closed node of some state, or the exit
  have hnode {p : Nat} (hp : p < (a.closedNfa d entry).size) :
      (∃ q < d.size, ∃ skips, (a.closedNfa d entry).nodes[p]? =
        some (a.closedNode d (d.size + 1) skips q)) ∨
        (a.closedNfa d entry).nodes[p]? = some ⟨[], []⟩ := by
    rw [size_closedNfa] at hp
    have hcases : p < d.size ∨ p = d.size + 0 ∨ p = d.size + 1 := by omega
    rcases hcases with hlt | rfl | rfl
    · exact .inl ⟨p, hlt, true, node_state hlt⟩
    · exact .inl ⟨entry, hentry, false, node_behind 0⟩
    · exact .inr (node_behind 1)
  refine ⟨fun p hp => hp, ?_, ?_, ?_⟩
  · intro p hp q' hq'
    rw [Set.mem_ofPred_eq, size_closedNfa]
    rcases hnode hp with ⟨q, hq, skips, heq⟩ | heq
    · rw [Nfa.silentSteps, heq] at hq'
      rcases mem_silent_closedNode.1 hq' with rfl | ⟨-, -, hnext⟩
      · omega
      · exact Nat.lt_add_right 2 (hd.next_lt hnext)
    · rw [Nfa.silentSteps, heq] at hq'
      cases hq'
  · intro p hp r q' hq'
    rw [Set.mem_ofPred_eq, size_closedNfa]
    rcases hnode hp with ⟨q, hq, skips, heq⟩ | heq
    · rw [Nfa.edgesOf, heq] at hq'
      obtain ⟨-, s, -, hnext, -⟩ := mem_edges_closedNode.1 hq'
      exact Nat.lt_add_right 2 (hd.next_lt hnext)
    · rw [Nfa.edgesOf, heq] at hq'
      cases hq'
  · intro p hp r q' hq'
    rcases hnode hp with ⟨q, hq, skips, heq⟩ | heq
    · rw [Nfa.edgesOf, heq] at hq'
      obtain ⟨-, s, hs, -, rfl⟩ := mem_edges_closedNode.1 hq'
      exact Nat.lt_of_lt_of_le hs ha
    · rw [Nfa.edgesOf, heq] at hq'
      cases hq'

theorem eq_nil_of_path_exit
    (h : (a.closedNfa d entry).Path (d.size + 1) (d.size + 1) w) : w = [] := by
  have hnode : (a.closedNfa d entry).nodes[d.size + 1]? = some ⟨[], []⟩ := node_behind 1
  cases h with
  | done => rfl
  | silent hstep =>
    rw [Nfa.silentSteps, hnode] at hstep
    cases hstep
  | symbol hstep =>
    rw [Nfa.edgesOf, hnode] at hstep
    cases hstep

/-- The symbols that are left when the inner anchors are gone. -/
def unanchored (a : Alphabet) (u : List Nat) : List Nat := u.filter (· ≠ a.anchorSymbol .inner)

theorem unanchored_action {s : Nat} (hs : s < a.actionCount) :
    a.unanchored (s :: u) = s :: a.unanchored u := by
  have hne : s ≠ a.anchorSymbol .inner := by
    have := actionCount_le_anchorSymbol a .inner
    omega
  simp [unanchored, hne]

theorem unanchored_inner : a.unanchored (a.anchorSymbol .inner :: u) = a.unanchored u := by
  simp [unanchored]

/-- A path from a closed node is a way from its state on. The node that does not skip the inner
anchor is no place to pass one. -/
theorem exists_passage (hd : d.WellFormed) {p : Nat}
    (h : (a.closedNfa d entry).Path (d.size + 1) p w)
    (hp : (a.closedNfa d entry).nodes[p]? = some (a.closedNode d (d.size + 1) skips q)) :
    ∃ u, a.Passage d q u ∧ (skips = false → u.head? ≠ some (a.anchorSymbol .inner)) ∧
      a.unanchored u = w := by
  induction h generalizing q skips with
  | done => exact ⟨[], trivial, fun _ => by simp, rfl⟩
  | silent hstep rest ih =>
    rw [Nfa.silentSteps, hp] at hstep
    rcases mem_silent_closedNode.1 hstep with rfl | ⟨hends, hskips, hnext⟩
    · rw [eq_nil_of_path_exit rest]
      exact ⟨[], trivial, fun _ => by simp, rfl⟩
    · obtain ⟨u, hu, -, hfilter⟩ := ih (node_state (hd.next_lt hnext))
      refine ⟨a.anchorSymbol .inner :: u, ⟨hends, .inr rfl, _, hnext, hu⟩, ?_, ?_⟩
      · intro hfalse
        rw [hskips] at hfalse
        cases hfalse
      · rw [unanchored_inner, hfilter]
  | @symbol p q' s r w hstep hs _ ih =>
    rw [Nfa.edgesOf, hp] at hstep
    obtain ⟨hends, s', hs', hnext, rfl⟩ := mem_edges_closedNode.1 hstep
    obtain rfl : s = s' := by
      rw [Nfa.contains_iff] at hs
      exact Nat.le_antisymm (Nat.le_of_lt_succ hs.2) hs.1
    obtain ⟨u, hu, -, hfilter⟩ := ih (node_state (hd.next_lt hnext))
    refine ⟨s :: u, ⟨hends, .inl hs', _, hnext, hu⟩, fun _ => ?_, ?_⟩
    · have := actionCount_le_anchorSymbol a .inner
      rw [List.head?_cons, ne_eq, Option.some.injEq]
      omega
    · rw [unanchored_action hs', hfilter]

theorem path_of_passage (hd : d.WellFormed) {p : Nat} (hu : a.Passage d q u)
    (hhead : skips = false → u.head? ≠ some (a.anchorSymbol .inner))
    (hp : (a.closedNfa d entry).nodes[p]? = some (a.closedNode d (d.size + 1) skips q)) :
    (a.closedNfa d entry).Path (d.size + 1) p (a.unanchored u) := by
  induction u generalizing q p skips with
  | nil =>
    refine .silent (q := d.size + 1) ?_ .done
    rw [Nfa.silentSteps, hp]
    exact mem_silent_closedNode.2 (.inl rfl)
  | cons s u ih =>
    obtain ⟨hends, hkind, q', hnext, hu⟩ := hu
    have hrest := ih hu (fun h : true = false => Bool.noConfusion h) (node_state (hd.next_lt hnext))
    rcases hkind with hs | rfl
    · rw [unanchored_action hs]
      refine .symbol (r := .single s) ?_ ?_ hrest
      · rw [Nfa.edgesOf, hp]
        exact mem_edges_closedNode.2 ⟨hends, s, hs, hnext, rfl⟩
      · exact Nfa.contains_iff.2 ⟨Nat.le_refl _, Nat.lt_succ_self _⟩
    · have hskips : skips = true := by
        by_contra hne
        exact hhead (Bool.eq_false_iff.2 hne) rfl
      rw [unanchored_inner]
      refine .silent ?_ hrest
      rw [Nfa.silentSteps, hp]
      exact mem_silent_closedNode.2 (.inr ⟨hends, hskips, hnext⟩)

/-- The words of a closed scope are the ways through it that do not begin with an inner anchor. -/
theorem exists_closeFrom (hd : d.WellFormed) (halphabet : d.alphabet = a.size)
    (hentry : entry < d.size) : ∃ e, a.closeFrom d entry = .ok e ∧ e.Minimal ∧
      e.alphabet = d.alphabet ∧ ∀ w, w ∈ e.words ↔
        ∃ u, a.Passage d entry u ∧ u.head? ≠ some (a.anchorSymbol .inner) ∧
          a.unanchored u = w := by
  have hactions : a.actionCount ≤ d.alphabet := halphabet ▸ Nat.le_of_lt (actionCount_lt_size a)
  have hn := wellFormed_closedNfa hd hactions hentry
  have hlt : d.size < (a.closedNfa d entry).size := by
    rw [size_closedNfa]
    omega
  have hwf := Nfa.wellFormed_determinize (n := a.closedNfa d entry) ⟨d.size, d.size + 1⟩
  refine ⟨((a.closedNfa d entry).determinize ⟨d.size, d.size + 1⟩).minimize, ?_,
    Dfa.minimal_minimize hwf, rfl, fun w => ?_⟩
  · rw [closeFrom, scopeNodes_eq hd halphabet hentry, ok_bind, Nfa.determinized_eq hn hlt, ok_bind]
    exact Dfa.minimized_eq hwf
  rw [Dfa.words_minimize hwf, Nfa.words_determinize hn hlt]
  constructor
  · intro h
    obtain ⟨u, hu, hhead, hfilter⟩ := exists_passage hd h (node_behind 0)
    exact ⟨u, hu, hhead rfl, hfilter⟩
  · rintro ⟨u, hu, hhead, rfl⟩
    exact path_of_passage hd hu (fun _ => hhead) (node_behind 0)

/-- A way through a scope is a run that takes actions and inner anchors only, and no transition
from a state where the scope can end. -/
theorem passage_iff : a.Passage d q u ↔
    (∃ q', d.run q u = some q') ∧ (∀ s ∈ u, s < a.actionCount ∨ s = a.anchorSymbol .inner) ∧
      ∀ p, p <+: u → p ≠ u → ∀ q', d.run q p = some q' → a.endsScope d q' = false := by
  induction u generalizing q with
  | nil =>
    refine ⟨fun _ => ⟨⟨q, rfl⟩, by simp, fun p hp hne => ?_⟩, fun _ => trivial⟩
    exact absurd (List.prefix_nil.1 hp) hne
  | cons s u ih =>
    constructor
    · rintro ⟨hends, hkind, t, hnext, hu⟩
      obtain ⟨⟨q', hrun⟩, hkinds, hended⟩ := ih.1 hu
      refine ⟨⟨q', by rw [Dfa.run, hnext]; exact hrun⟩, ?_, ?_⟩
      · exact List.forall_mem_cons.2 ⟨hkind, hkinds⟩
      · intro p hp hne o ho
        cases p with
        | nil =>
          cases ho
          exact hends
        | cons s' p =>
          obtain ⟨rfl, hrest⟩ := List.cons_prefix_cons.1 hp
          rw [Dfa.run, hnext] at ho
          exact hended p hrest (fun heq => hne (heq ▸ rfl)) o ho
    · rintro ⟨⟨q', hrun⟩, hkinds, hended⟩
      obtain ⟨hkind, hkinds⟩ := List.forall_mem_cons.1 hkinds
      obtain ⟨t, hnext, hrun⟩ := Option.bind_eq_some_iff.1 hrun
      refine ⟨hended [] List.nil_prefix (List.cons_ne_nil s u).symm q rfl, hkind, t, hnext,
        ih.2 ⟨⟨q', hrun⟩, hkinds, ?_⟩⟩
      intro p hp hne o ho
      refine hended (s :: p) (List.cons_prefix_cons.2 ⟨rfl, hp⟩) ?_ o ?_
      · intro heq
        exact hne (List.cons.inj heq).2
      · rw [Dfa.run, hnext]
        exact ho

theorem endsScope_iff : a.endsScope d q = true ↔
    ∃ q', d.run q [a.anchorSymbol .stop] = some q' := by
  rw [endsScope, Dfa.run_singleton, Option.isSome_iff_exists]

end Closed

/-! ### Represented languages -/

variable (a d L) in
/-- The words of an automaton are those of a language over actions and anchors. -/
structure Represents : Prop extends d.WellFormed where
  alphabet_eq : d.alphabet = a.size
  words_eq : d.words = L.map a.code

theorem Represents.mem_iff (h : a.Represents d L) {v : List SymbolKind} :
    v.map a.code ∈ d.words ↔ v ∈ L := by
  rw [h.words_eq, map_mem_map_iff a.code_injective]

/-- Words over an alphabet are coded words. -/
theorem exists_map_code_eq {w : List Nat} (hw : ∀ s ∈ w, s < (ofTable t).size) :
    ∃ v : List SymbolKind, v.map (ofTable t).code = w := by
  induction w with
  | nil => exact ⟨[], rfl⟩
  | cons s w ih =>
    rw [List.forall_mem_cons] at hw
    obtain ⟨k, rfl⟩ := exists_code_eq hw.1
    obtain ⟨v, rfl⟩ := ih hw.2
    exact ⟨k :: v, rfl⟩

/-- An automaton represents the language of the words whose codes it accepts. -/
theorem represents_of_mem_iff (hd : d.WellFormed) (halphabet : d.alphabet = (ofTable t).size)
    (h : ∀ v : List SymbolKind, v.map (ofTable t).code ∈ d.words ↔ v ∈ L) :
    (ofTable t).Represents d L := by
  refine ⟨hd, halphabet, ?_⟩
  ext w
  rw [mem_map_iff]
  constructor
  · intro hw
    obtain ⟨v, rfl⟩ := exists_map_code_eq fun s hs => halphabet ▸ hd.lt_alphabet_of_mem hw s hs
    exact ⟨v, (h v).1 hw, rfl⟩
  · rintro ⟨v, hv, rfl⟩
    exact (h v).2 hv

variable (a d) in
/-- The words over actions and anchors that an automaton accepts. -/
def decoded : Language SymbolKind := {v | v.map a.code ∈ d.words}

theorem Represents.decoded_eq (h : a.Represents d L) : a.decoded d = L := by
  ext v
  exact h.mem_iff

theorem represents_decoded (hd : d.WellFormed) (halphabet : d.alphabet = (ofTable t).size) :
    (ofTable t).Represents d ((ofTable t).decoded d) :=
  represents_of_mem_iff hd halphabet fun _ => Iff.rfl

/-! ### Closing -/

section Close

/-- What a scope looks like from where it is entered: each word of the scope can be finished. -/
structure Entered (t : ActionTable) (d : Dfa) (entry : Nat) (L : Language SymbolKind) : Prop
    extends d.WellFormed where
  alphabet_eq : d.alphabet = (ofTable t).size
  entry_lt : entry < d.size
  live : ∀ q < d.size, ∃ w, w ∈ d.wordsFrom q
  mem_iff : ∀ v : List SymbolKind,
    v.map (ofTable t).code ∈ d.wordsFrom entry ↔ v ∈ Scope.inside L

variable {entry : Nat} {u v : List SymbolKind}

/-- What words of a scope begin with is what can be run from its entry. -/
theorem Entered.mem_prefixes_iff (h : Entered t d entry L) :
    u ∈ Scope.prefixes (Scope.inside L) ↔
      ∃ q, d.run entry (u.map (ofTable t).code) = some q := by
  constructor
  · rintro ⟨v, hv⟩
    have hmem := (h.mem_iff _).2 hv
    rw [List.map_append, Dfa.append_mem_wordsFrom] at hmem
    obtain ⟨q, hq, -⟩ := hmem
    exact ⟨q, hq⟩
  · rintro ⟨q, hq⟩
    obtain ⟨w, hw⟩ := h.live q (h.run_lt h.entry_lt hq)
    obtain ⟨v, rfl⟩ := exists_map_code_eq fun s hs =>
      h.alphabet_eq ▸ h.lt_alphabet_of_mem hw s hs
    refine ⟨v, (h.mem_iff _).1 ?_⟩
    rw [List.map_append, Dfa.append_mem_wordsFrom]
    exact ⟨q, hq, hw⟩

/-- A symbol of the alphabet is an action or an anchor. -/
theorem code_kind_iff {k : SymbolKind} (hk : (ofTable t).code k < (ofTable t).size) :
    ((ofTable t).code k < (ofTable t).actionCount ∨
        (ofTable t).code k = (ofTable t).anchorSymbol .inner) ↔
      k = .anchor .inner ∨ ∃ id, k = .action id := by
  cases k with
  | anchor mark =>
    have hle := actionCount_le_anchorSymbol (ofTable t) mark
    rw [code_anchor]
    constructor
    · rintro (hlt | heq)
      · omega
      · exact .inl (congrArg _ (anchorSymbol_injective _ heq))
    · rintro (heq | ⟨id, heq⟩)
      · cases heq
        exact .inr rfl
      · cases heq
  | action id =>
    have hid : id ∈ (ofTable t).actions := by
      by_contra hid
      have := size_le_code hid
      omega
    exact ⟨fun _ => .inr ⟨id, rfl⟩, fun _ => .inl (code_action_lt_iff.2 hid)⟩

/-- The ways through a scope are those through the states of its automaton. -/
theorem Entered.passes_iff (h : Entered t d entry L) : Scope.Passes L u ↔
    (ofTable t).Passage d entry (u.map (ofTable t).code) ∧
      (u.map (ofTable t).code).head? ≠ some ((ofTable t).anchorSymbol .inner) := by
  have hhead : (u.map (ofTable t).code).head? ≠ some ((ofTable t).anchorSymbol .inner) ↔
      u.head? ≠ some (.anchor .inner) := by
    cases u with
    | nil => simp
    | cons k u =>
      have hinj := (code_injective (ofTable t)).eq_iff (a := k) (b := .anchor .inner)
      rw [code_anchor] at hinj
      simp only [List.map_cons, List.head?_cons, ne_eq, Option.some.injEq, hinj]
  have hstop (p : List SymbolKind) : p ++ [.anchor .stop] ∈ Scope.prefixes (Scope.inside L) ↔
      ∃ q, d.run entry (p.map (ofTable t).code) = some q ∧ (ofTable t).endsScope d q = true := by
    rw [h.mem_prefixes_iff, List.map_append]
    simp only [Dfa.run_append, Option.bind_eq_some_iff, endsScope_iff]
    exact ⟨fun ⟨q', q, hq, hq'⟩ => ⟨q, hq, q', hq'⟩, fun ⟨q, hq, q', hq'⟩ => ⟨q', q, hq, hq'⟩⟩
  rw [hhead, passage_iff]
  constructor
  · rintro ⟨hfront, hkinds, hne, hended⟩
    obtain ⟨q, hq⟩ := h.mem_prefixes_iff.1 hfront
    refine ⟨⟨⟨q, hq⟩, ?_, ?_⟩, hne⟩
    · intro s hs
      have hlt := h.lt_alphabet_of_run hq s hs
      rw [h.alphabet_eq] at hlt
      obtain ⟨k, hk, rfl⟩ := List.mem_map.1 hs
      exact (code_kind_iff hlt).2 (hkinds k hk)
    · intro p hp hpne q' hq'
      obtain ⟨v, rfl, hv⟩ : ∃ v, v.map (ofTable t).code = p ∧ v <+: u := by
        refine ⟨u.take p.length, ?_, List.take_prefix _ _⟩
        rw [List.map_take]
        exact (List.prefix_iff_eq_take.1 hp).symm
      by_contra hends
      rw [Bool.not_eq_false] at hends
      refine hended v hv (fun heq => hpne (heq ▸ rfl)) ((hstop v).2 ⟨q', hq', hends⟩)
  · rintro ⟨⟨⟨q, hq⟩, hkinds, hended⟩, hne⟩
    refine ⟨h.mem_prefixes_iff.2 ⟨q, hq⟩, ?_, hne, ?_⟩
    · intro k hk
      have hs : (ofTable t).code k ∈ u.map (ofTable t).code := List.mem_map_of_mem hk
      have hlt := h.lt_alphabet_of_run hq _ hs
      rw [h.alphabet_eq] at hlt
      exact (code_kind_iff hlt).1 (hkinds _ hs)
    · intro p hp hpne hstopped
      obtain ⟨q', hq', hends⟩ := (hstop p).1 hstopped
      have hmap : p.map (ofTable t).code ≠ u.map (ofTable t).code := fun heq =>
        hpne (List.map_injective_iff.2 (code_injective _) heq)
      rw [hended _ (hp.map _) hmap q' hq'] at hends
      cases hends

/-- Leaving out inner anchors leaves out their symbols. -/
theorem map_filter_code (u : List SymbolKind) :
    a.unanchored (u.map a.code) = (u.filter (· ≠ .anchor .inner)).map a.code := by
  rw [unanchored, List.filter_map]
  congr 1
  refine List.filter_congr fun k _ => ?_
  have hinj := (code_injective a).eq_iff (a := k) (b := .anchor .inner)
  rw [code_anchor] at hinj
  simp [hinj]

theorem Entered.exists_represents (h : Entered t d entry L) :
    ∃ e, (ofTable t).closeFrom d entry = .ok e ∧ (ofTable t).Represents e (Scope.passed L) := by
  obtain ⟨e, he, hminimal, halphabet, hwords⟩ :=
    exists_closeFrom h.toWellFormed h.alphabet_eq h.entry_lt
  refine ⟨e, he, hminimal.toWellFormed, halphabet.trans h.alphabet_eq, ?_⟩
  ext w
  rw [hwords, mem_map_iff]
  constructor
  · rintro ⟨u, hu, hhead, rfl⟩
    obtain ⟨v, rfl⟩ : ∃ v : List SymbolKind, v.map (ofTable t).code = u := by
      obtain ⟨q, hq⟩ := (passage_iff.1 hu).1
      exact exists_map_code_eq fun s hs => h.alphabet_eq ▸ h.lt_alphabet_of_run hq s hs
    exact ⟨_, ⟨v, h.passes_iff.2 ⟨hu, hhead⟩, rfl⟩, (map_filter_code v).symm⟩
  · rintro ⟨_, ⟨u, hu, rfl⟩, rfl⟩
    obtain ⟨hpassage, hhead⟩ := h.passes_iff.1 hu
    exact ⟨u.map (ofTable t).code, hpassage, hhead, map_filter_code u⟩

/-- The words of a scope with their start anchor. -/
def anchored (L : Language SymbolKind) : Language SymbolKind :=
  {w | ∃ v ∈ Scope.inside L, w = .anchor .start :: v}

theorem cons_start_mem_iff (h : (ofTable t).Represents d (anchored L)) :
    (ofTable t).anchorSymbol .start :: v.map (ofTable t).code ∈ d.words ↔ v ∈ Scope.inside L := by
  rw [← code_anchor, ← List.map_cons, h.mem_iff]
  constructor
  · rintro ⟨v', hv', heq⟩
    cases heq
    exact hv'
  · exact fun hv => ⟨v, hv, rfl⟩

/-- Where nothing begins with a start anchor, only the empty word is left. -/
theorem represents_close_of_not_start (h : (ofTable t).Represents d (anchored L))
    (hnone : d.next d.initial ((ofTable t).anchorSymbol .start) = none) :
    (ofTable t).Represents (.emptyWord d.alphabet) (Scope.close L) := by
  refine represents_of_mem_iff (Dfa.wellFormed_emptyWord _) h.alphabet_eq fun v => ?_
  rw [Dfa.mem_words_emptyWord, List.map_eq_nil_iff]
  refine ⟨.inl, ?_⟩
  rintro (rfl | ⟨u, hu, -⟩)
  · rfl
  · obtain ⟨rest, hrest⟩ := hu.mem_prefixes
    rw [← cons_start_mem_iff h, Dfa.words_eq, Dfa.cons_mem_wordsFrom, hnone] at hrest
    obtain ⟨q, hq, -⟩ := hrest
    cases hq

/-- A scope is entered behind its start anchor. -/
theorem Entered.of_start (hd : d.Minimal) (h : (ofTable t).Represents d (anchored L))
    (hnext : d.next d.initial ((ofTable t).anchorSymbol .start) = some entry)
    (hloop : d.words = 0 → entry ≠ d.initial) : Entered t d entry L where
  toWellFormed := hd.toWellFormed
  alphabet_eq := h.alphabet_eq
  entry_lt := hd.next_lt hnext
  live := hd.live_of_next hnext hloop
  mem_iff v := by
    rw [← cons_start_mem_iff h, Dfa.words_eq, Dfa.cons_mem_wordsFrom]
    simp [hnext]

/-- Where a scope can be entered, nothing needs to be added for the empty word. -/
theorem Entered.close_eq (h : Entered t d entry L) : Scope.close L = Scope.passed L := by
  have hempty : [] ∈ Scope.passed L := by
    refine ⟨[], ⟨h.mem_prefixes_iff.2 ⟨entry, rfl⟩, by simp, by simp, ?_⟩, rfl⟩
    intro p hp hne
    exact absurd (List.prefix_nil.1 hp) hne
  ext w
  refine ⟨?_, .inr⟩
  rintro (rfl | hw)
  · exact hempty
  · exact hw

/-- Closing the smallest automaton of a scope closes its language. Where there is no word nothing
must lead back to the initial state, as this would be taken for the entry of the scope. -/
theorem exists_closeScope (hd : d.Minimal) (h : (ofTable t).Represents d (anchored L))
    (hloop : d.words = 0 →
      d.next d.initial ((ofTable t).anchorSymbol .start) ≠ some d.initial) :
    ∃ e, (ofTable t).closeScope d = .ok e ∧ (ofTable t).Represents e (Scope.close L) := by
  rw [closeScope, scopeStart_eq hd.toWellFormed h.alphabet_eq, ok_bind]
  cases hentry : d.next d.initial ((ofTable t).anchorSymbol .start) with
  | none => exact ⟨_, rfl, represents_close_of_not_start h hentry⟩
  | some entry =>
    have haway (hnone : d.words = 0) : entry ≠ d.initial := by
      rintro rfl
      exact hloop hnone hentry
    have hentered := Entered.of_start hd h hentry haway
    rw [hentered.close_eq]
    exact hentered.exists_represents

end Close

end Alphabet
end CallChain
