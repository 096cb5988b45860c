import CallChain.Finite.Checked
import CallChain.Proofs.Finite.Determinize
import CallChain.Proofs.Finite.Minimize
import CallChain.Proofs.Finite.Search

/-!
# Determinizing and minimizing look up nothing that is missing

In a well-formed automaton every node, state and block that is looked up on the way is there, and
every transition is written to a place that the table has. So the operations that a compilation uses
answer what `Nfa.determinize` and `Dfa.minimize` describe.

* `Nfa.wellFormed_iff`: whether an automaton is well formed can be decided.
* `Nfa.determinized_eq`: closures, moves and the search over sets of nodes.
* `Dfa.foundLive_eq`, `Dfa.refined_eq`, `Dfa.represented_eq`: the parts of minimizing.
* `Dfa.minimized_eq`: the smallest automaton.
-/

namespace CallChain

namespace Nfa

variable {n : Nfa} {f : Fragment} {nodes seeds : List Nat} {exit p q s : Nat}

/-! ### Well-formed automata -/

variable (n) in
/-- Do all steps take symbols of the alphabet only? -/
def staysInAlphabet : Bool :=
  n.nodes.all fun node => node.edges.all fun (range, _) => range.stop ≤ n.alphabet

variable (n) in
/-- Do all steps lead to nodes? -/
def staysInNodes : Bool :=
  n.nodes.all fun node =>
    node.silent.all (· < n.size) && node.edges.all fun (_, target) => target < n.size

/-- The checks decide whether an automaton is well formed. -/
theorem wellFormed_iff :
    n.WellFormed ↔ n.staysInAlphabet = true ∧ n.staysInNodes = true := by
  have hget {p : Nat} (hp : p < n.nodes.size) : n.nodes[p]? = some n.nodes[p] :=
    Array.getElem?_eq_getElem hp
  simp only [staysInAlphabet, staysInNodes, Array.all_eq_true, Bool.and_eq_true, List.all_eq_true,
    decide_eq_true_eq]
  constructor
  · intro hn
    have hsilent (p : Nat) (hp : p < n.nodes.size) : n.silentSteps p = n.nodes[p].silent := by
      rw [silentSteps, hget hp]
      rfl
    have hedges (p : Nat) (hp : p < n.nodes.size) : n.edgesOf p = n.nodes[p].edges := by
      rw [edgesOf, hget hp]
      rfl
    refine ⟨fun p hp step hstep => ?_, fun p hp => ⟨fun q hq => ?_, fun step hstep => ?_⟩⟩
    · exact hn.stop_le p hp step.1 step.2 (hedges p hp ▸ hstep)
    · exact hn.silent_mem p hp q (hsilent p hp ▸ hq)
    · exact hn.edge_mem p hp step.1 step.2 (hedges p hp ▸ hstep)
  · rintro ⟨halphabet, hnodes⟩
    refine ⟨fun p hp => hp, fun p hp q hq => ?_, fun p hp r q hq => ?_, fun p hp r q hq => ?_⟩
    · rw [silentSteps, hget hp] at hq
      exact (hnodes p hp).1 q hq
    · rw [edgesOf, hget hp] at hq
      exact (hnodes p hp).2 _ hq
    · rw [edgesOf, hget hp] at hq
      exact halphabet p hp _ hq

/-! ### Sets of nodes -/

theorem silentTargets_eq (hn : n.WellFormed) (hp : p < n.size) :
    n.silentTargets p = .ok (n.silentSteps p) := by
  have hsteps : n.silentSteps p = n.nodes[p].silent := by
    rw [silentSteps, Array.getElem?_eq_getElem hp]
    rfl
  rw [silentTargets, node, readAt_eq hp, ok_bind, hsteps]
  exact checkIndices_eq fun q hq => hn.silent_mem p hp q (hsteps ▸ hq)

/-- Silent steps lead from nodes to nodes, so the search behind them meets nodes only. -/
theorem closed_eq (hn : n.WellFormed) (hseeds : ∀ p ∈ seeds, p < n.size) :
    n.closed seeds = .ok (n.closure seeds) := by
  have hconfined := hn.confined hseeds
  have hbound : (List.range n.size).length ≤ n.size + seeds.length := by
    rw [List.length_range]
    exact Nat.le_add_right _ _
  have hsearch : discoverM n.silentTargets (n.size + seeds.length) seeds =
      .ok (discover n.silentSteps (n.size + seeds.length) seeds) := discoverM_eq fun p hp => by
    have hp := hconfined.mem_of_reached ((mem_discover_iff hconfined hbound).1 hp)
    exact silentTargets_eq hn (List.mem_range.1 hp)
  rw [closed, checkIndices_eq hseeds, ok_bind, hsearch]
  rfl

theorem moved_eq (hnodes : ∀ p ∈ nodes, p < n.size) : n.moved nodes s = .ok (n.move nodes s) := by
  have hfound : nodes.mapM n.node = .ok (nodes.map fun p => n.nodes[p]?.getD ⟨[], []⟩) := by
    refine mapM_eq_ok fun p hp => ?_
    rw [node, readAt_eq (hnodes p hp), Array.getElem?_eq_getElem (hnodes p hp)]
    rfl
  rw [moved, hfound, ok_bind, move, List.flatMap_map, List.filterMap_flatMap]
  refine congrArg Except.ok (List.flatMap_congr fun p hp => ?_)
  rw [Array.getElem?_eq_getElem (hnodes p hp)]
  rfl

/-- A set of nodes that one more symbol leads to. -/
theorem enteredSet_eq (hn : n.WellFormed) (hnodes : ∀ p ∈ nodes, p < n.size) :
    n.enteredSet exit nodes s =
      .ok ((n.stepSet nodes s).map fun after => (after, .ok (after.contains exit))) := by
  rw [enteredSet, moved_eq hnodes, ok_bind, stepSet]
  split
  · rfl
  · rw [closed_eq hn (lt_size_of_mem_move hn hnodes)]
    rfl

/-- The sets that a search over sets of nodes meets. -/
theorem lt_size_of_mem_stepOrder
    (hnodes : nodes ∈ Dfa.stepOrder n.alphabet n.stepSet (Nat.pow 2 n.size) (n.closure seeds)) :
    ∀ p ∈ nodes, p < n.size := by
  rcases Dfa.eq_start_or_step bounded_stepSet hnodes with rfl | ⟨w, before, s, -, hstep⟩
  · exact fun p hp => lt_size_of_mem_closure hp
  · rw [stepSet_eq] at hstep
    split at hstep
    · cases hstep
    · cases hstep
      exact fun p hp => lt_size_of_mem_closure hp

theorem determinized_eq (hn : n.WellFormed) (hentry : f.entry < n.size) :
    n.determinized f = .ok (n.determinize f) := by
  have hstart : n.closed [f.entry] = .ok (n.closure [f.entry]) :=
    closed_eq hn fun p hp => by rwa [List.mem_singleton.1 hp]
  rw [determinized, hstart, ok_bind]
  exact Dfa.searched_eq (·.contains f.exit) bounded_stepSet fun nodes hnodes s _ =>
    enteredSet_eq hn (lt_size_of_mem_stepOrder hnodes)

end Nfa

namespace Dfa

variable {d : Dfa} {live : Array Bool} {blocks : Blocks} {q s : Nat}

/-! ### Live states -/

theorem map_snd_edges : (d.edges q).map (·.2) = d.successors q := by
  have hfst : (d.targets q).zipIdx.map (·.1) = d.targets q := List.zipIdx_map_fst 0 _
  rw [edges, List.map_filterMap, successors]
  conv_rhs => rw [← hfst, List.filterMap_map]
  refine List.filterMap_congr ?_
  rintro ⟨target, symbol⟩ -
  cases target <;> rfl

theorem entered_eq (hd : d.WellFormed) (hq : q < d.size) : d.entered q = .ok (d.successors q) := by
  rw [entered, transitions_eq hq, ok_bind, map_snd_edges]
  refine checkIndices_eq fun t ht => ?_
  obtain ⟨s, hs⟩ := mem_successors.1 ht
  exact hd.next_lt hs

theorem enteredArrows_eq (hd : d.WellFormed) : d.enteredArrows = .ok d.arrows := by
  have harrows : d.states.mapM (fun source => return (← d.entered source).map (source, ·)) =
      Except.ok (d.states.map fun source => (d.successors source).map (source, ·)) := by
    refine mapM_eq_ok fun q hq => ?_
    rw [entered_eq hd (List.mem_range.1 hq)]
    rfl
  rw [enteredArrows, harrows]
  rfl

/-- Only states are seeds of the two searches, and only states are met by them. -/
theorem foundLive_eq (hd : d.WellFormed) : d.foundLive = .ok d.live := by
  have hseeds : checkIndices d.size [d.initial] = .ok [d.initial] :=
    checkIndices_eq fun q hq => by rw [List.mem_singleton.1 hq]; exact hd.initial_lt
  have hreachable : discoverM d.entered d.size [d.initial] = .ok d.reachable := by
    refine discoverM_eq fun q hq => ?_
    obtain ⟨w, hw⟩ := (mem_reachable hd).1 hq
    have hlt := hd.run_lt hd.initial_lt hw
    rw [entered_eq hd hlt, successors, hd.targets_eq_map hlt, List.filterMap_map]
    rfl
  have haccepting : d.states.filterM d.endsAt = .ok (d.states.filter d.isAccepting) :=
    filterM_eq_ok fun q hq => endsAt_eq (List.mem_range.1 hq)
  have hproductive : discoverM (fun state => checkIndices d.size (sources d.arrows state)) d.size
      (d.states.filter d.isAccepting) = .ok d.productive := by
    refine discoverM_eq fun q _ => checkIndices_eq fun p hp => ?_
    -- a state that an arrow leaves has a transition
    obtain ⟨s, hs⟩ := mem_arrows.1 (mem_sources.1 hp)
    exact lt_size_of_next hs
  rw [foundLive, hseeds, ok_bind, hreachable, ok_bind, enteredArrows_eq hd, ok_bind, haccepting,
    ok_bind, hproductive]
  rfl

/-! ### Blocks of states -/

theorem size_live : d.live.size = d.size := by simp [Dfa.live, states]

theorem readAt_live (hlive : live.size = d.size) (hq : q < d.size) :
    readAt live q = .ok (isLive live q) := by
  have hq : q < live.size := hlive ▸ hq
  rw [readAt_eq hq, isLive, Array.getD_eq_getD_getElem?, Array.getElem?_eq_getElem hq]
  rfl

theorem readAt_numbers (hblocks : blocks.numbers.size = d.size) (hq : q < d.size) :
    readAt blocks.numbers q = .ok (blocks.of q) := by
  have hq : q < blocks.numbers.size := hblocks ▸ hq
  rw [readAt_eq hq, Blocks.of, Array.getD_eq_getD_getElem?, Array.getElem?_eq_getElem hq]
  rfl

section Rounds

variable (hd : d.WellFormed) (hlive : live.size = d.size)

include hd hlive

theorem liveTarget_eq (hq : q < d.size) (hs : s < d.alphabet) :
    d.liveTarget live q s = .ok ((d.restrict live).next q s) := by
  rw [liveTarget, transition_eq hd hq hs, ok_bind, next_restrict]
  cases ht : d.next q s with
  | none => rfl
  | some t =>
    dsimp only
    rw [readAt_live hlive (hd.next_lt ht)]
    rfl

theorem blockBehind_eq (hblocks : blocks.numbers.size = d.size) (hq : q < d.size)
    (hs : s < d.alphabet) :
    d.blockBehind live blocks q s = .ok (((d.restrict live).next q s).map blocks.of) := by
  rw [blockBehind, liveTarget_eq hd hlive hq hs, ok_bind]
  cases ht : (d.restrict live).next q s with
  | none => rfl
  | some t =>
    dsimp only
    rw [readAt_numbers hblocks (hd.next_lt (next_restrict_eq_some_iff.1 ht).1)]
    rfl

theorem look_eq_ok (hblocks : blocks.numbers.size = d.size) (hq : q < d.size) :
    d.look live blocks q =
      .ok (if isLive live q then some ((d.restrict live).signature blocks q) else none) := by
  have hrow : d.symbols.mapM (d.blockBehind live blocks q) =
      .ok (((d.restrict live).targets q).map (·.map blocks.of)) := by
    have hrestrict : (d.restrict live).WellFormed := hd.restrict
    rw [hrestrict.targets_eq_map (by rwa [size_restrict]), List.map_map]
    exact mapM_eq_ok fun s hs => blockBehind_eq hd hlive hblocks hq (List.mem_range.1 hs)
  rw [look, readAt_live hlive hq, ok_bind]
  split
  · rw [readSignature, hrow, ok_bind, readAt_numbers hblocks hq]
    rfl
  · rfl

theorem divided_eq (hblocks : blocks.numbers.size = d.size) :
    d.divided live blocks = .ok ((d.restrict live).divide live blocks) := by
  have hlooks : d.states.mapM (d.look live blocks) = .ok ((d.restrict live).states.map fun state =>
      if isLive live state then some ((d.restrict live).signature blocks state) else none) := by
    rw [states, states, size_restrict]
    exact mapM_eq_ok fun q hq => look_eq_ok hd hlive hblocks (List.mem_range.1 hq)
  rw [divided, hlooks]
  rfl

/-- A round keeps one number for each state, which is what the next one reads. -/
theorem refined_eq {fuel : Nat} (hblocks : blocks.numbers.size = d.size) :
    d.refined live fuel blocks = .ok ((d.restrict live).refine live fuel blocks) := by
  induction fuel generalizing blocks with
  | zero => rfl
  | succ fuel ih =>
    have hsize : ((d.restrict live).divide live blocks).numbers.size = d.size := by
      simp [divide, numberLooks, states]
    rw [refined, divided_eq hd hlive hblocks, ok_bind, refine]
    split
    · rfl
    · exact ih hsize

end Rounds

/-! ### Representatives -/

variable (live blocks) in
/-- The first live state of each block among the states below `count`. -/
def firstBelow (count : Nat) : Array (Option Nat) :=
  ((List.range blocks.count).map fun block => (List.range count).find? fun state =>
    isLive live state && blocks.of state = block).toArray

theorem size_firstBelow {count : Nat} : (firstBelow live blocks count).size = blocks.count := by
  simp [firstBelow]

theorem getElem?_firstBelow {count block : Nat} (hblock : block < blocks.count) :
    (firstBelow live blocks count)[block]? = some ((List.range count).find? fun state =>
      isLive live state && blocks.of state = block) := by
  simp [firstBelow, hblock]

theorem eq_firstBelow {count : Nat} {firsts : Array (Option Nat)}
    (hsize : firsts.size = blocks.count)
    (h : ∀ block < blocks.count, firsts[block]? = (firstBelow live blocks count)[block]?) :
    firsts = firstBelow live blocks count := by
  refine Array.ext_getElem? fun block => ?_
  rcases Nat.lt_or_ge block blocks.count with hlt | hge
  · exact h block hlt
  · rw [Array.getElem?_eq_none (by rwa [hsize]),
      Array.getElem?_eq_none (by rwa [size_firstBelow])]

/-- A further state is the first one of its block, or there has been one. -/
theorem getElem?_firstBelow_succ {block : Nat} (hblock : block < blocks.count) :
    (firstBelow live blocks (q + 1))[block]? = some (((List.range q).find? fun state =>
      isLive live state && blocks.of state = block).or
        (if isLive live q = true ∧ blocks.of q = block then some q else none)) := by
  rw [getElem?_firstBelow hblock, List.range_succ, List.find?_append, List.find?_singleton]
  simp only [Bool.and_eq_true, decide_eq_true_eq]

/-- Entering a state writes to the place of its block, and that has room for it. -/
theorem represent_eq (hlive : live.size = d.size) (hblocks : blocks.numbers.size = d.size)
    (hq : q < d.size) (hcount : isLive live q = true → blocks.of q < blocks.count) :
    represent live blocks (firstBelow live blocks q) q = .ok (firstBelow live blocks (q + 1)) := by
  rw [represent, readAt_live hlive hq, ok_bind]
  split
  next hq' =>
    have hblock := hcount hq'
    rw [readAt_numbers hblocks hq, ok_bind, readAt_of_getElem? (getElem?_firstBelow hblock),
      ok_bind, writeAt_eq (by rwa [size_firstBelow])]
    refine congrArg Except.ok (eq_firstBelow ?_ fun block hlt => ?_)
    · rw [Array.size_setIfInBounds, size_firstBelow]
    · rw [Array.getElem?_setIfInBounds, size_firstBelow, getElem?_firstBelow_succ hlt]
      by_cases hsame : blocks.of q = block
      · rw [if_pos hsame, if_pos hblock, if_pos ⟨hq', hsame⟩, hsame, Option.orElse_eq_orElse,
          Option.orElse_eq_or]
      · rw [if_neg hsame, if_neg fun h => hsame h.2, getElem?_firstBelow hlt, Option.or_none]
  next hq' =>
    refine congrArg Except.ok (eq_firstBelow size_firstBelow fun block hlt => ?_)
    rw [getElem?_firstBelow_succ hlt, if_neg fun h => hq' h.1, getElem?_firstBelow hlt,
      Option.or_none]

theorem represented_eq (hlive : live.size = d.size) (hblocks : blocks.numbers.size = d.size)
    (hcount : ∀ q < d.size, isLive live q = true → blocks.of q < blocks.count) :
    d.represented live blocks = .ok (d.representatives live blocks) := by
  have hnone : firstBelow live blocks 0 = .replicate blocks.count none := by simp [firstBelow]
  rw [represented, ← hnone]
  exact foldlM_range_eq_ok _ fun q hq => represent_eq hlive hblocks hq (hcount q hq)

/-! ### The result -/

theorem blockOf_eq (hblocks : blocks.numbers.size = d.size) (hq : q < d.size)
    (hlt : blocks.of q < blocks.count) : blockOf blocks q = .ok (blocks.of q) := by
  rw [blockOf, readAt_numbers hblocks hq, ok_bind, checkIndex_eq hlt]
  rfl

theorem size_blocks : (d.blocks live).numbers.size = d.size := by
  refine blocks_induction (motive := fun blocks => blocks.numbers.size = d.size) ?_ ?_
  · simp [acceptance, size]
  · intro blocks _
    simp [divide, numberLooks, states]

theorem acceptance_restrict : (d.restrict live).acceptance = d.acceptance := by
  simp [acceptance, restrict, Function.comp_def]

theorem represented_restrict : (d.restrict live).representatives live blocks =
    d.representatives live blocks := by
  rw [representatives, representatives, states, states, size_restrict]

/-- The block that a symbol leads to from the block of a live state. -/
theorem enteredBlock_eq (hd : d.WellFormed) (hlive : live.size = d.size)
    (hpruned : (d.restrict live).Pruned live) (hq : isLive live q = true) (hs : s < d.alphabet) :
    let blocks := (d.restrict live).blocks live
    d.enteredBlock live blocks (d.representatives live blocks) (blocks.of q) s =
      .ok (((d.restrict live).nextBlock live (blocks.of q) s).map fun block =>
        (block, .ok ((d.restrict live).acceptingBlock live block))) := by
  intro blocks
  have hcounted := hpruned.counted_blocks
  have hlt {q : Nat} (hq : isLive live q = true) : q < d.size := by
    simpa using hpruned.lt_size hq
  have hblocks : blocks.numbers.size = d.size := by
    have hsize : (d.restrict live).size = d.size := size_restrict
    rw [← hsize]
    exact size_blocks
  obtain ⟨state, hstate, hmem, hof⟩ :=
    exists_representative hcounted (hcounted.of_lt q (hpruned.mem_of_isLive hq))
  have hstate_live := (mem_liveStates.1 hmem).2
  rw [represented_restrict] at hstate
  -- the representative leads where the state leads, as both are in one block
  rw [enteredBlock, readAt_of_getElem? hstate, ok_bind, ← hof, hpruned.nextBlock_of hstate_live]
  dsimp only
  rw [liveTarget_eq hd hlive (hlt hstate_live) hs, ok_bind]
  cases ht : (d.restrict live).next state s with
  | none => rfl
  | some t =>
    have htlive := hpruned.next_live ht
    have hcount := hcounted.of_lt t (hpruned.mem_of_isLive htlive)
    dsimp only
    rw [blockOf_eq hblocks (hlt htlive) hcount, ok_bind, endsAt_eq (hlt htlive), Option.map_some,
      Option.map_some, hpruned.acceptingBlock_of htlive, isAccepting_restrict]
    rfl

/-- The rounds divide the live states of the automaton that is left when the others are dropped. -/
theorem refined_acceptance_eq (hd : d.WellFormed) :
    d.refined d.live (d.size + 1) d.acceptance = .ok ((d.restrict d.live).blocks d.live) := by
  rw [refined_eq hd size_live (by simp [acceptance, size]), Dfa.blocks, size_restrict,
    acceptance_restrict]

/-- The rounds number the blocks of live states without gaps, so the block of each state that is
entered has a representative. -/
theorem minimized_eq (hd : d.WellFormed) : d.minimized = .ok d.minimize := by
  have hpruned := pruned_restrict hd
  have hcounted := hpruned.counted_blocks
  have hblocks : ((d.restrict d.live).blocks d.live).numbers.size = d.size := by
    rw [size_blocks, size_restrict]
  have hlt {q : Nat} (hq : isLive d.live q = true) :
      ((d.restrict d.live).blocks d.live).of q < ((d.restrict d.live).blocks d.live).count :=
    hcounted.of_lt q (hpruned.mem_of_isLive hq)
  have hrepresented := represented_eq size_live hblocks fun q _ => hlt
  have hstart := blockOf_eq hblocks hd.initial_lt (hlt hpruned.initial_live)
  have hends : d.endsAt d.initial = .ok ((d.restrict d.live).acceptingBlock d.live
      (((d.restrict d.live).blocks d.live).of d.initial)) := by
    have hsame := hpruned.acceptingBlock_of hpruned.initial_live
    rw [isAccepting_restrict] at hsame
    exact (endsAt_eq hd.initial_lt).trans (congrArg Except.ok hsame.symm)
  rw [minimized, foundLive_eq hd, ok_bind, refined_acceptance_eq hd, ok_bind, hrepresented, ok_bind,
    hstart, ok_bind, hends]
  refine (searched_eq _ hpruned.bounded_nextBlock fun block hblock s hs => ?_).trans ?_
  · obtain ⟨q, hq, rfl⟩ := hpruned.mem_stepOrder_iff.1 hblock
    exact enteredBlock_eq hd size_live hpruned hq hs
  · rfl

end Dfa
end CallChain
