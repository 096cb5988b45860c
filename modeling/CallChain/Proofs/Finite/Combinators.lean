import CallChain.Proofs.Finite.Access

/-!
# The words of the combinators

The words of a fragment that a combinator makes are those of the operation on languages that the
combinator is named for, given that its operands own regions apart from each other.

* `makes_sequence`, `makes_alternation`, `makes_star`, `makes_plus`, `makes_optional`: operands.
* `makes_symbols`, `exists_embed`: without operands.
-/

namespace CallChain.Nfa

open scoped Computability

variable {n n' n'' : Nfa} {R S : Set Nat} {f g : Fragment} {L M : Language Nat} {a b p q : Nat}

/-! ### Two fragments in a row -/

theorem Holds.append (hf : n.Holds R f L) (hg : n.Holds S g M) (hdisjoint : Disjoint R S) :
    (n.connectSilent f.exit g.entry).Holds (R ∪ S) ⟨f.entry, g.exit⟩ (L * M) := by
  classical
  have hwired := (Wired.refl n).connectSilent (b := g.entry) (hf.lt_size _ hf.exit_mem)
  have hmem : ∀ wire ∈ [(f.exit, g.entry)], wire.2 ∈ R ∪ S := by
    intro wire hwire
    rw [List.mem_singleton.1 hwire]
    exact .inr hg.entry_mem
  have hregion := hf.toRegion.union hg.toRegion
  refine ⟨hwired.region hregion hmem, .inl hf.entry_mem, .inr hg.exit_mem, le_antisymm ?_ ?_⟩
  · -- from the first region words lead to its exit and on through the second
    let K (q : Nat) : Language Nat :=
      if q ∈ R then n.wordsTo f.exit q * M else n.wordsTo g.exit q * 1
    have hKR : ∀ q ∈ R, K q = n.wordsTo f.exit q * M := fun q hq => if_pos hq
    have hKS : ∀ q ∈ S, K q = n.wordsTo g.exit q * 1 :=
      fun q hq => if_neg (Set.disjoint_right.1 hdisjoint hq)
    have hK : n.Respects (R ∪ S) K :=
      ((respects_wordsTo_mul f.exit M).congr hf.toRegion hKR).union
        ((respects_wordsTo_mul g.exit 1).congr hg.toRegion hKS)
    have hentry : K f.entry = L * M := by
      rw [hKR _ hf.entry_mem]
      exact congrArg (· * M) hf.words_eq
    rw [← hentry]
    refine hwired.le_of_respects hregion hmem g.exit hK ?_ ?_ (.inl hf.entry_mem)
    · rw [hKS _ hg.exit_mem, mul_one]
      exact one_le_wordsTo
    · intro wire hwire
      rw [List.mem_singleton.1 hwire, hKR _ hf.exit_mem, hKS _ hg.entry_mem, mul_one]
      rw [show n.wordsTo g.exit g.entry = M from hg.words_eq]
      exact le_mul_of_one_le_left' one_le_wordsTo
  · rw [← hf.words_eq, ← hg.words_eq]
    -- The new step leads from the first exit into the second fragment.
    calc n.wordsTo f.exit f.entry * n.wordsTo g.exit g.entry
        ≤ (n.connectSilent f.exit g.entry).wordsTo f.exit f.entry *
            (n.connectSilent f.exit g.entry).wordsTo g.exit f.exit := by
          refine mul_le_mul' hwired.wordsTo_le (hwired.wordsTo_le.trans ?_)
          exact hwired.wire_le (List.mem_singleton_self _)
      _ ≤ _ := mul_wordsTo_le f.exit

/-! ### Sequences -/

/-- Linking depends on the exit of the first fragment only. -/
theorem link_cons (hexit : f.exit = g.exit) (fs : List Fragment) :
    n.link (f :: fs) = n.link (g :: fs) := by
  cases fs with
  | nil => rfl
  | cons h fs =>
    rw [link, link, hexit]

@[simp] theorem size_link (fs : List Fragment) : (n.link fs).size = n.size := by
  induction fs generalizing n with
  | nil => rfl
  | cons f fs ih =>
    cases fs with
    | nil => rfl
    | cons g fs => rw [link, ih, size_connectSilent]

theorem exit_getLastD (hexit : f.exit = g.exit) (fs : List Fragment) :
    (fs.getLastD f).exit = (fs.getLastD g).exit := by
  cases fs with
  | nil => exact hexit
  | cons h fs => rfl

/-- Linked fragments are one fragment. Linking the first two leaves a shorter row to link. -/
theorem holds_link {fs : List Fragment} {Ls : List (Language Nat)} (hf : n.Holds R f L)
    (hfs : n.Aligned S fs Ls) (hdisjoint : Disjoint R S) :
    Changes (R ∪ S) n (n.link (f :: fs)) ∧
      (n.link (f :: fs)).Holds (R ∪ S) ⟨f.entry, (fs.getLastD f).exit⟩ (L * Ls.prod) := by
  induction fs generalizing n f R S L Ls with
  | nil =>
    cases hfs
    rw [Set.union_empty, List.prod_nil, mul_one]
    exact ⟨.refl _ _, hf⟩
  | cons g fs ih =>
    cases hfs with
    | @cons S T _ M _ Ms hg hfs hST =>
      rw [Set.disjoint_union_right] at hdisjoint
      obtain ⟨hRS, hRT⟩ := hdisjoint
      have hchange : Changes {f.exit} n (n.connectSilent f.exit g.entry) :=
        changes_connectSilent rfl
      have hrest : (n.connectSilent f.exit g.entry).Aligned T fs Ms :=
        hfs.of_changes hchange (Set.disjoint_singleton_right.2
          (Set.disjoint_left.1 hRT hf.exit_mem))
      -- Linking the first two leaves one fragment in their place, which owns both regions; the rest
      -- is apart from it still, so the induction hypothesis links what is left.
      have hpair := hf.append hg hRS
      obtain ⟨hchanges, hholds⟩ := ih hpair hrest (Set.disjoint_union_left.2 ⟨hRT, hST⟩)
      have hhead : (⟨f.entry, g.exit⟩ : Fragment).exit = g.exit := rfl
      rw [link_cons hhead] at hchanges hholds
      rw [exit_getLastD hhead, mul_assoc] at hholds
      rw [link, List.prod_cons, ← Set.union_assoc]
      rw [List.getLastD_cons]
      refine ⟨?_, hholds⟩
      have hfirst : Changes (R ∪ S ∪ T) n (n.connectSilent f.exit g.entry) :=
        changes_connectSilent (.inl (.inl hf.exit_mem))
      exact hfirst.trans hchanges Set.subset_union_left

theorem added_eq_empty (hsize : n'.size = n.size) : n.added n' = ∅ := by
  ext q
  simp only [added, hsize, Set.mem_ofPred_eq, Set.mem_empty_iff_false, iff_false]
  omega

/-- The two nodes of a new pair. -/
theorem mem_added_pair (hsize : n'.size = n.size + 2) :
    q ∈ n.added n' ↔ q = n.size ∨ q = n.size + 1 := by
  simp only [added, hsize, Set.mem_ofPred_eq]
  omega

theorem region_addPair : n.addPair.1.Region (n.added n.addPair.1) := by
  have hnone {p : Nat} (hp : p ∈ n.added n.addPair.1) :
      n.addPair.1.silentSteps p = [] ∧ n.addPair.1.edgesOf p = [] := by
    rw [silentSteps_addPair, edgesOf_addPair]
    exact ⟨silentSteps_eq_nil hp.1, edgesOf_eq_nil hp.1⟩
  refine ⟨fun p hp => hp.2, ?_, ?_, ?_⟩
  · intro p hp q hq
    simp [hnone hp] at hq
  · intro p hp r q hq
    simp [hnone hp] at hq
  · intro p hp r q hq
    simp [hnone hp] at hq

/-- New nodes respect everything, since no step leaves them. -/
theorem respects_addPair (K : Nat → Language Nat) :
    n.addPair.1.Respects (n.added n.addPair.1) K := by
  refine ⟨?_, ?_⟩
  · intro p hp q hq
    simp [silentSteps_eq_nil hp.1] at hq
  · intro p hp r q hq
    simp [edgesOf_eq_nil hp.1] at hq

theorem added_congr (hsize : n'.size = n''.size) : n.added n' = n.added n'' := by
  rw [added, added, hsize]

/-! ### A pair of new nodes around a fragment -/

section Pair

variable {wires : List (Nat × Nat)}

/-- Words to the second of two new nodes are bounded by what the steps of a region respect, and the
new steps between the region and the two nodes as well. -/
theorem Wired.le_around (h : Wired n.addPair.1 n' wires) (hR : n.Region R)
    (hmem : ∀ wire ∈ wires, wire.1 ∈ R ∪ n.added n.addPair.1 ∧ wire.2 ∈ R ∪ n.added n.addPair.1)
    {K : Nat → Language Nat} (hK : n.Respects R K) (hgoal : 1 ≤ K (n.size + 1))
    (hwires : ∀ wire ∈ wires, K wire.2 ≤ K wire.1) (hp : p ∈ R ∪ n.added n.addPair.1) :
    n'.wordsTo (n.size + 1) p ≤ K p := by
  have hregion : n.addPair.1.Region R :=
    hR.congr (fun q hq => nodes_addPair (hR.lt_size q hq)) rfl
  have hold : n.addPair.1.Respects R K := by
    refine ⟨?_, ?_⟩
    · intro p hp q hq
      exact hK.silent_le p hp q (silentSteps_addPair ▸ hq)
    · intro p hp r q hq
      exact hK.symbol_le p hp r q (edgesOf_addPair ▸ hq)
  exact h.le_of_respects (hregion.union region_addPair) (fun wire hwire => (hmem wire hwire).2) _
    (hold.union (respects_addPair K)) hgoal hwires hp

/-- New steps between a region and two new nodes make a fragment that ends in the second. -/
theorem Wired.makes (h : Wired n.addPair.1 n' wires) (hR : n.Region R)
    (hmem : ∀ wire ∈ wires, wire.1 ∈ R ∪ n.added n.addPair.1 ∧ wire.2 ∈ R ∪ n.added n.addPair.1)
    (hp : p ∈ R ∪ n.added n.addPair.1) (hwords : n'.wordsTo (n.size + 1) p = M) :
    Makes n R (n', ⟨p, n.size + 1⟩) M := by
  have hregion : n.addPair.1.Region R :=
    hR.congr (fun q hq => nodes_addPair (hR.lt_size q hq)) rfl
  have hadded : n.added n' = n.added n.addPair.1 := added_congr h.size_eq
  refine ⟨⟨h.alphabet_eq, ?_, ?_⟩, ?_⟩
  · rw [h.size_eq, size_addPair]
    omega
  · intro q hq hqR
    rw [h.same q, nodes_addPair hq]
    rintro wire hwire rfl
    -- An old node outside of the region starts none of the new steps.
    rcases (hmem wire hwire).1 with hmem | hmem
    · exact hqR hmem
    · exact Nat.not_lt.2 hmem.1 hq
  · rw [hadded]
    refine ⟨h.region (hregion.union region_addPair) (fun wire hwire => (hmem wire hwire).2), hp,
      .inr ?_, hwords⟩
    exact (mem_added_pair size_addPair).2 (.inr rfl)

end Pair

theorem entry_mem_added : n.size ∈ n.added n.addPair.1 :=
  (mem_added_pair size_addPair).2 (.inl rfl)

theorem exit_mem_added : n.size + 1 ∈ n.added n.addPair.1 :=
  (mem_added_pair size_addPair).2 (.inr rfl)

/-! ### Without operands -/

theorem region_empty : n.Region ∅ :=
  ⟨fun _ h => h.elim, fun _ h => h.elim, fun _ h => h.elim, fun _ h => h.elim⟩

theorem makes_epsilon : Makes n ∅ n.epsilon 1 := by
  have hwired := (Wired.refl n.addPair.1).connectSilent (b := n.size + 1) entry_mem_added.2
  rw [epsilon, addPair_eq]
  have hentry : n.size ∈ ∅ ∪ n.added n.addPair.1 := .inr entry_mem_added
  have hmem : ∀ wire ∈ [(n.size, n.size + 1)],
      wire.1 ∈ ∅ ∪ n.added n.addPair.1 ∧ wire.2 ∈ ∅ ∪ n.added n.addPair.1 := by
    intro wire hwire
    rw [List.mem_singleton.1 hwire]
    exact ⟨hentry, .inr exit_mem_added⟩
  refine hwired.makes region_empty hmem hentry (le_antisymm ?_ ?_)
  · have hK : n.Respects ∅ fun _ => 1 := ⟨fun _ h => h.elim, fun _ h => h.elim⟩
    exact hwired.le_around region_empty hmem hK le_rfl (fun _ _ => le_rfl) hentry
  · exact one_le_wordsTo.trans (hwired.wire_le (List.mem_singleton_self _))

theorem contains_iff {r : SymbolRange} {s : Nat} :
    r.contains s = true ↔ r.start ≤ s ∧ s < r.stop := by
  simp [SymbolRange.contains]

/-- The words of one symbol from a range. -/
def rangeWords (r : SymbolRange) : Language Nat := {w | ∃ s, r.contains s = true ∧ w = [s]}

section Connect

variable {r r' : SymbolRange}

@[simp] theorem silentSteps_connect : (n.connect a r b).silentSteps p = n.silentSteps p := by
  unfold connect silentSteps
  split
  · rfl
  · rw [Array.getElem?_modify]
    split
    · cases n.nodes[p]? <;> rfl
    · rfl

@[simp] theorem size_connect : (n.connect a r b).size = n.size := by
  unfold connect
  split
  · rfl
  · simp [size]

@[simp] theorem alphabet_connect : (n.connect a r b).alphabet = n.alphabet := by
  unfold connect
  split <;> rfl

theorem nodes_connect (hq : q ≠ a) : (n.connect a r b).nodes[q]? = n.nodes[q]? := by
  unfold connect
  split
  · rfl
  · simp [Array.getElem?_modify, hq.symm]

/-- A step on an empty range is none. -/
theorem mem_edgesOf_connect (ha : a < n.size) : (r', q) ∈ (n.connect a r b).edgesOf p ↔
    (r', q) ∈ n.edgesOf p ∨ (p = a ∧ r' = r ∧ q = b ∧ r.isEmpty = false) := by
  unfold connect
  split
  next hempty => simp [hempty]
  next hempty =>
    unfold edgesOf
    rw [Array.getElem?_modify]
    by_cases hp : a = p
    · subst hp
      have hnode : n.nodes[a]? = some n.nodes[a] := Array.getElem?_eq_getElem ha
      simp [hnode, hempty]
    · simp [hp, Ne.symm hp]

theorem makes_symbols (hstop : r.stop ≤ n.alphabet) : Makes n ∅ (n.symbols r) (rangeWords r) := by
  have hpair : n.size < n.addPair.1.size := entry_mem_added.2
  have hadded : n.added (n.addPair.1.connect n.size r (n.size + 1)) = n.added n.addPair.1 :=
    added_congr size_connect
  have hsilent {p q : Nat} (hp : p ∈ n.added n.addPair.1) :
      q ∉ (n.addPair.1.connect n.size r (n.size + 1)).silentSteps p := by
    rw [silentSteps_connect, silentSteps_addPair, silentSteps_eq_nil hp.1]
    exact List.not_mem_nil
  have hedge {p q : Nat} {r' : SymbolRange} (hp : p ∈ n.added n.addPair.1) :
      (r', q) ∈ (n.addPair.1.connect n.size r (n.size + 1)).edgesOf p ↔
        p = n.size ∧ r' = r ∧ q = n.size + 1 ∧ r.isEmpty = false := by
    rw [mem_edgesOf_connect hpair, edgesOf_addPair, edgesOf_eq_nil hp.1]
    simp
  rw [symbols, addPair_eq]
  refine ⟨⟨alphabet_connect, ?_, ?_⟩, ?_⟩
  · rw [size_connect, size_addPair]
    omega
  · intro q hq _
    rw [nodes_connect (Nat.ne_of_lt hq), nodes_addPair hq]
  rw [Set.empty_union, hadded]
  have hregion : (n.addPair.1.connect n.size r (n.size + 1)).Region (n.added n.addPair.1) := by
    refine ⟨?_, ?_, ?_, ?_⟩
    · intro p hp
      rw [size_connect]
      exact hp.2
    · exact fun p hp q hq => absurd hq (hsilent hp)
    · intro p hp r' q hq
      rw [((hedge hp).1 hq).2.2.1]
      exact exit_mem_added
    · intro p hp r' q hq
      rw [((hedge hp).1 hq).2.1, alphabet_connect]
      exact hstop
  refine ⟨hregion, entry_mem_added, exit_mem_added, le_antisymm ?_ ?_⟩
  · let K (q : Nat) : Language Nat := if q = n.size + 1 then 1 else rangeWords r
    have hKentry : K n.size = rangeWords r := if_neg (Nat.ne_of_lt (Nat.lt_succ_self _))
    have hKexit : K (n.size + 1) = 1 := if_pos rfl
    rw [← hKentry]
    refine wordsTo_le hregion ⟨?_, ?_⟩ (le_of_eq hKexit.symm) entry_mem_added
    · exact fun p hp q hq => absurd hq (hsilent hp)
    · intro p hp r' q hq s hs
      obtain ⟨rfl, rfl, rfl, -⟩ := (hedge hp).1 hq
      rw [hKentry, hKexit, mul_one]
      rintro w rfl
      exact ⟨s, hs, rfl⟩
  · rintro w ⟨s, hs, rfl⟩
    have hne : r.isEmpty = false := by
      rw [contains_iff] at hs
      simp only [SymbolRange.isEmpty, decide_eq_false_iff_not]
      omega
    exact Path.symbol ((hedge entry_mem_added).2 ⟨rfl, rfl, rfl, hne⟩) hs .done

theorem makes_symbol {s : Nat} (hs : s < n.alphabet) : Makes n ∅ (n.symbol s) {[s]} := by
  have hmakes : Makes n ∅ (n.symbol s) (rangeWords (.single s)) := makes_symbols hs
  have hwords : rangeWords (.single s) = {[s]} := by
    ext w
    constructor
    · rintro ⟨s', hs', rfl⟩
      rw [contains_iff] at hs'
      rw [show s' = s from Nat.le_antisymm (Nat.le_of_lt_succ hs'.2) hs'.1]
      exact Set.mem_singleton _
    · rintro rfl
      exact ⟨s, contains_iff.2 ⟨Nat.le_refl _, Nat.lt_succ_self _⟩, rfl⟩
  rwa [hwords] at hmakes

end Connect

/-! ### Copies of deterministic automata -/

section Embed

variable {d : Dfa}

/-- A run that is added to or begun takes exactly one further symbol, and only to its own state. -/
theorem mem_extendRuns {runs : List (SymbolRange × Nat)} (edge : Nat × Nat) {s t : Nat}
    (hruns : ∀ run ∈ runs, run.1.start < run.1.stop) :
    (∀ run ∈ extendRuns runs edge, run.1.start < run.1.stop) ∧
      ((∃ r, (r, t) ∈ extendRuns runs edge ∧ r.contains s = true) ↔
        (∃ r, (r, t) ∈ runs ∧ r.contains s = true) ∨ (s, t) = edge) := by
  obtain ⟨symbol, target⟩ := edge
  have hsingle : (SymbolRange.single symbol).contains s = true ↔ s = symbol := by
    rw [contains_iff]
    show symbol ≤ s ∧ s < symbol + 1 ↔ s = symbol
    omega
  cases runs with
  | nil =>
    refine ⟨by simp [extendRuns, SymbolRange.single], ?_⟩
    simp [extendRuns, hsingle, and_comm]
  | cons run rest =>
    obtain ⟨range, last⟩ := run
    rw [List.forall_mem_cons] at hruns
    have hrange : range.start < range.stop := hruns.1
    unfold extendRuns
    split
    next heq =>
      cases heq
      split
      next hjoin =>
        obtain ⟨rfl, rfl⟩ := hjoin
        -- the last run ends where the new symbol begins
        have hgrown : (⟨range.start, range.stop + 1⟩ : SymbolRange).contains s = true ↔
            range.contains s = true ∨ s = range.stop := by
          rw [contains_iff, contains_iff]
          show range.start ≤ s ∧ s < range.stop + 1 ↔ _
          omega
        refine ⟨?_, ?_⟩
        · rw [List.forall_mem_cons]
          exact ⟨Nat.lt_succ_of_lt hrange, hruns.2⟩
        · simp only [List.mem_cons, Prod.mk.injEq]
          grind
      next =>
        refine ⟨?_, ?_⟩
        · rw [List.forall_mem_cons, List.forall_mem_cons]
          exact ⟨Nat.lt_succ_self symbol, hruns⟩
        · simp only [List.mem_cons, Prod.mk.injEq]
          grind
    next heq => cases heq

/-- The runs of a state take symbols, and lead where its transitions lead. -/
theorem mem_symbolRuns {i s t : Nat} :
    (∀ run ∈ symbolRuns d i, run.1.start < run.1.stop) ∧
      ((∃ r, (r, t) ∈ symbolRuns d i ∧ r.contains s = true) ↔ d.next i s = some t) := by
  have hfold : ∀ (edges : List (Nat × Nat)) (runs : List (SymbolRange × Nat)),
      (∀ run ∈ runs, run.1.start < run.1.stop) →
        (∀ run ∈ edges.foldl extendRuns runs, run.1.start < run.1.stop) ∧
          ((∃ r, (r, t) ∈ edges.foldl extendRuns runs ∧ r.contains s = true) ↔
            (∃ r, (r, t) ∈ runs ∧ r.contains s = true) ∨ (s, t) ∈ edges) := by
    intro edges
    induction edges with
    | nil => simp
    | cons edge edges ih =>
      intro runs hruns
      have hstep := mem_extendRuns edge (s := s) (t := t) hruns
      rw [List.foldl_cons, (ih _ hstep.1).2, hstep.2, List.mem_cons, or_assoc]
      exact ⟨(ih _ hstep.1).1, Iff.rfl⟩
  have hedges : (s, t) ∈ d.edges i ↔ d.next i s = some t := Dfa.mem_edges
  have hruns := hfold (d.edges i) [] (by simp)
  simp only [symbolRuns, mergeRuns, List.mem_reverse]
  rw [hruns.2, hedges]
  exact ⟨hruns.1, by simp⟩

theorem stop_le_of_mem_symbolRuns {i : Nat} {run : SymbolRange × Nat} (hd : d.WellFormed)
    (hrun : run ∈ symbolRuns d i) : run.1.stop ≤ d.alphabet := by
  have hlt := (mem_symbolRuns (s := 0) (t := 0)).1 run hrun
  -- the last symbol of the run is one of the alphabet
  have hlast : d.next i (run.1.stop - 1) = some run.2 :=
    mem_symbolRuns.2.1 ⟨run.1, hrun, contains_iff.2 ⟨by omega, by omega⟩⟩
  have := hd.symbol_lt hlast
  omega

theorem nodes_copy {i : Nat} :
    (i < n.size → (n.copy d).1.nodes[i]? = n.nodes[i]?) ∧
      (n.copy d).1.nodes[n.size + i]? =
        if i = d.size then some ⟨[], []⟩
        else d.states[i]?.map (copyState d n.size (n.size + d.size)) := by
  unfold copy
  refine ⟨?_, ?_⟩
  · intro hi
    have hlt : i < (n.nodes ++
        (d.states.map (copyState d n.size (n.size + d.size))).toArray).size := by
      rw [Array.size_append]
      exact Nat.lt_of_lt_of_le hi (Nat.le_add_right _ _)
    rw [Array.getElem?_push, if_neg (Nat.ne_of_lt hlt), Array.getElem?_append_left hi]
  · have hsize : (d.states.map (copyState d n.size (n.size + d.size))).toArray.size = d.size := by
      simp [Dfa.states]
    rw [Array.getElem?_push, Array.size_append, hsize]
    by_cases hi : i = d.size
    · rw [if_pos hi, if_pos (by rw [hi]; rfl)]
    · have hne : n.size + i ≠ n.nodes.size + d.size := by
        intro heq
        exact hi (Nat.add_left_cancel heq)
      have hge : n.nodes.size ≤ n.size + i := Nat.le_add_right _ _
      rw [if_neg hi, if_neg hne, Array.getElem?_append_right hge,
        show n.size + i - n.nodes.size = i from Nat.add_sub_cancel_left _ _,
        List.getElem?_toArray, List.getElem?_map]

/-- The steps of a copied state, and none from the exit behind the last one. -/
theorem mem_silentSteps_copy {i : Nat} :
    q ∈ (n.copy d).1.silentSteps (n.size + i) ↔ d.isAccepting i = true ∧ q = n.size + d.size := by
  rw [silentSteps, nodes_copy.2]
  rcases Nat.lt_or_ge i d.size with hi | hi
  · have hstate : d.states[i]? = some i := by simp [Dfa.states, hi]
    rw [if_neg (Nat.ne_of_lt hi), hstate]
    cases haccepting : d.isAccepting i <;> simp [copyState, haccepting]
  · have hrejects : d.isAccepting i = false := by
      rw [Bool.eq_false_iff]
      exact fun haccepting => Nat.not_lt.2 hi (Dfa.lt_size_of_isAccepting haccepting)
    have hstate : d.states[i]? = none := by simp [Dfa.states, hi]
    rw [hstate, hrejects]
    split <;> simp

/-- The steps of a copied state that take symbols are its runs. -/
theorem edgesOf_copy {i : Nat} :
    (n.copy d).1.edgesOf (n.size + i) =
      (symbolRuns d i).map fun run => (run.1, n.size + run.2) := by
  rcases Nat.lt_or_ge i d.size with hi | hi
  · have hstate : d.states[i]? = some i := by simp [Dfa.states, hi]
    rw [edgesOf, nodes_copy.2, if_neg (Nat.ne_of_lt hi), hstate]
    rfl
  · have hnone : d.states[i]? = none := by simp [Dfa.states, hi]
    have hruns : symbolRuns d i = [] := by
      rw [symbolRuns, Dfa.edges, Dfa.targets_eq_nil hi]
      rfl
    rw [edgesOf, nodes_copy.2, hnone, hruns]
    split <;> rfl

/-- A step of a copied state takes some symbols, on all of which the state leads to one other. -/
theorem exists_of_mem_edgesOf_copy {i : Nat} {r : SymbolRange}
    (hstep : (r, q) ∈ (n.copy d).1.edgesOf (n.size + i)) :
    ∃ t, q = n.size + t ∧ r.start < r.stop ∧ ∀ s, r.contains s = true → d.next i s = some t := by
  rw [edgesOf_copy, List.mem_map] at hstep
  obtain ⟨⟨range, t⟩, hrun, heq⟩ := hstep
  cases heq
  refine ⟨t, rfl, (mem_symbolRuns (s := 0) (t := 0)).1 _ hrun, fun s hs => ?_⟩
  exact mem_symbolRuns.2.1 ⟨range, hrun, hs⟩

theorem exists_mem_edgesOf_copy {i s t : Nat} (hnext : d.next i s = some t) :
    ∃ r, (r, n.size + t) ∈ (n.copy d).1.edgesOf (n.size + i) ∧ r.contains s = true := by
  obtain ⟨r, hrun, hs⟩ := mem_symbolRuns.2.2 hnext
  refine ⟨r, ?_, hs⟩
  rw [edgesOf_copy]
  exact List.mem_map_of_mem hrun

theorem shape_copy :
    (n.copy d).1.alphabet = n.alphabet ∧ (n.copy d).1.size = n.size + d.size + 1 ∧
      (n.copy d).2 = ⟨n.size + d.initial, n.size + d.size⟩ := by
  simp [copy, size, Dfa.states, Nat.add_assoc]

/-- The nodes of a copy: its states, and the exit behind the last one. -/
theorem mem_added_copy : q ∈ n.added (n.copy d).1 ↔ ∃ i, i ≤ d.size ∧ q = n.size + i := by
  simp only [added, shape_copy.2.1, Set.mem_ofPred_eq]
  constructor
  · rintro ⟨hle, hlt⟩
    exact ⟨q - n.size, by omega, by omega⟩
  · rintro ⟨i, hi, rfl⟩
    omega

theorem region_copy (hd : d.WellFormed) (halphabet : d.alphabet = n.alphabet) :
    (n.copy d).1.Region (n.added (n.copy d).1) := by
  refine ⟨fun q hq => hq.2, ?_, ?_, ?_⟩
  · intro p hp q hq
    obtain ⟨i, -, rfl⟩ := mem_added_copy.1 hp
    exact mem_added_copy.2 ⟨d.size, Nat.le_refl _, (mem_silentSteps_copy.1 hq).2⟩
  · intro p hp r q hq
    obtain ⟨i, -, rfl⟩ := mem_added_copy.1 hp
    obtain ⟨t, rfl, hlt, hnext⟩ := exists_of_mem_edgesOf_copy hq
    have hfirst := hnext r.start (contains_iff.2 ⟨Nat.le_refl _, hlt⟩)
    exact mem_added_copy.2 ⟨t, Nat.le_of_lt (hd.next_lt hfirst), rfl⟩
  · intro p hp r q hq
    obtain ⟨i, -, rfl⟩ := mem_added_copy.1 hp
    rw [edgesOf_copy, List.mem_map] at hq
    obtain ⟨⟨range, t⟩, hrun, heq⟩ := hq
    cases heq
    rw [shape_copy.1, ← halphabet]
    exact stop_le_of_mem_symbolRuns hd hrun

/-- What a copied state accepts is what leads from its copy to the exit. -/
theorem wordsTo_copy (hd : d.WellFormed) (halphabet : d.alphabet = n.alphabet) {i : Nat}
    (hi : i < d.size) :
    (n.copy d).1.wordsTo (n.size + d.size) (n.size + i) = d.wordsFrom i := by
  apply le_antisymm
  · -- The words of the states respect the steps of the copy.
    let K (q : Nat) : Language Nat := if q = n.size + d.size then 1 else d.wordsFrom (q - n.size)
    have hKstate {i : Nat} (hi : i < d.size) : K (n.size + i) = d.wordsFrom i := by
      have hne : n.size + i ≠ n.size + d.size := by omega
      simp only [K, if_neg hne, Nat.add_sub_cancel_left]
    have hKexit : K (n.size + d.size) = 1 := if_pos rfl
    have hmem : n.size + i ∈ n.added (n.copy d).1 := mem_added_copy.2 ⟨i, Nat.le_of_lt hi, rfl⟩
    rw [← hKstate hi]
    refine wordsTo_le (region_copy hd halphabet) ⟨?_, ?_⟩ (le_of_eq hKexit.symm) hmem
    · intro p hp q hq
      obtain ⟨i, -, rfl⟩ := mem_added_copy.1 hp
      obtain ⟨haccepting, rfl⟩ := mem_silentSteps_copy.1 hq
      rw [hKexit, hKstate (Dfa.lt_size_of_isAccepting haccepting)]
      intro w hw
      rw [(Language.mem_one w).1 hw]
      exact Dfa.nil_mem_wordsFrom.2 haccepting
    · intro p hp r q hq s hs
      obtain ⟨i, -, rfl⟩ := mem_added_copy.1 hp
      obtain ⟨t, rfl, -, hrun⟩ := exists_of_mem_edgesOf_copy hq
      have hnext : d.next i s = some t := hrun s hs
      rw [hKstate (hd.next_lt hnext), hKstate (Dfa.lt_size_of_next hnext)]
      intro w hw
      obtain ⟨u, hu, v, hv, rfl⟩ := Language.mem_mul.1 hw
      rw [show u = [s] from hu]
      exact Dfa.cons_mem_wordsFrom.2 ⟨t, hnext, hv⟩
  · -- A run of the automaton is a path of the copy, symbol by symbol.
    intro w hw
    show (n.copy d).1.Path (n.size + d.size) (n.size + i) w
    induction w generalizing i with
    | nil =>
      have haccepting := Dfa.nil_mem_wordsFrom.1 hw
      exact .silent (mem_silentSteps_copy.2 ⟨haccepting, rfl⟩) .done
    | cons s w ih =>
      obtain ⟨t, hnext, hw⟩ := Dfa.cons_mem_wordsFrom.1 hw
      obtain ⟨r, hstep, hs⟩ := exists_mem_edgesOf_copy hnext
      exact .symbol hstep hs (ih (hd.next_lt hnext) hw)

theorem makes_copy (hd : d.WellFormed) (halphabet : d.alphabet = n.alphabet) :
    Makes n ∅ (n.copy d) d.words := by
  obtain ⟨hsame, hsize, hfragment⟩ := shape_copy (n := n) (d := d)
  have hinitial : n.size + d.initial ∈ n.added (n.copy d).1 :=
    mem_added_copy.2 ⟨d.initial, Nat.le_of_lt hd.initial_lt, rfl⟩
  have hexit : n.size + d.size ∈ n.added (n.copy d).1 := mem_added_copy.2 ⟨_, Nat.le_refl _, rfl⟩
  refine ⟨⟨hsame, by omega, fun q hq _ => nodes_copy.1 hq⟩, ?_⟩
  rw [Set.empty_union, hfragment]
  exact ⟨region_copy hd halphabet, hinitial, hexit, wordsTo_copy hd halphabet hd.initial_lt⟩

/-- The steps of one state are added one after the other. -/
theorem embedState_eq {base exit : Nat} (hd : d.WellFormed) (halphabet : d.alphabet = n.alphabet)
    (hq : q < d.size) (hnode : base + q < n.size) :
    embedState d base exit n q = .ok (n.grow (base + q) (copyState d base exit q)) := by
  have hruns : (symbolRuns d q).foldlM
      (fun m run => m.connected (base + q) run.1 (base + run.2)) n =
      .ok (n.grow (base + q) ⟨(symbolRuns d q).map fun run => (run.1, base + run.2), []⟩) := by
    have hsilent : ((symbolRuns d q).flatMap fun _ => ([] : List Nat)) = [] :=
      List.flatMap_eq_nil_iff.2 fun _ _ => rfl
    rw [List.map_eq_flatMap, ← hsilent]
    refine foldlM_eq_grow (fun run : SymbolRange × Nat => ⟨[(run.1, base + run.2)], []⟩)
      fun m hm hsize run hrun => ?_
    have hstop : run.1.stop ≤ m.alphabet := by
      rw [hm, ← halphabet]
      exact stop_le_of_mem_symbolRuns hd hrun
    have hfull : run.1.isEmpty = false := by
      have := (mem_symbolRuns (s := 0) (t := 0)).1 run hrun
      rw [SymbolRange.isEmpty, decide_eq_false_iff_not]
      omega
    rw [connected_eq hstop (hsize ▸ hnode), connect_eq_grow hfull]
  rw [embedState, Dfa.transitions_eq hq, ok_bind]
  show ((symbolRuns d q).foldlM _ n >>= _) = _
  rw [hruns, ok_bind, Dfa.endsAt_eq hq, ok_bind, copyState]
  split
  · rw [connectedSilent_eq (by rwa [size_grow]), connectSilent_eq_grow, grow_grow]
    simp
  · rfl

/-- Embedding copies. -/
theorem embed_eq (hd : d.WellFormed) (halphabet : d.alphabet = n.alphabet) :
    n.embed d = .ok (n.copy d) := by
  have hblank : ((n.addNodes d.size).addNode).1 = ⟨n.alphabet, (n.nodes.toList ++
      List.replicate d.size (⟨[], []⟩ : Node) ++ [(⟨[], []⟩ : Node)]).toArray⟩ := by
    simp [addNode, addNodes]
  have hexit : ((n.addNodes d.size).addNode).2 = n.size + d.size := by
    simp [addNode, addNodes, size]
  have hloop := foldlM_fill n.alphabet n.nodes.toList [⟨[], []⟩]
    (embedState d n.size (n.size + d.size)) (copyState d n.size (n.size + d.size)) d.size
    fun m hm hsize q hq => by
      rw [Array.length_toList] at hsize ⊢
      exact embedState_eq hd (halphabet.trans hm.symm) hq (by rw [hsize]; simp [size]; omega)
  rw [embed, if_neg (not_not.2 halphabet)]
  dsimp only
  rw [hblank, hexit, Dfa.states, hloop, ok_bind, copy]
  have hnodes : (n.nodes.toList ++ (List.range d.size).map (copyState d n.size (n.size + d.size)) ++
      [(⟨[], []⟩ : Node)]).toArray =
      (n.nodes ++ (d.states.map (copyState d n.size (n.size + d.size))).toArray).push ⟨[], []⟩ := by
    simp [Dfa.states]
  rw [hnodes]
  rfl

/-- A copy holds the words of the automaton that it copies. -/
theorem exists_embed (hd : d.WellFormed) (halphabet : d.alphabet = n.alphabet) :
    ∃ made, n.embed d = .ok made ∧ Makes n ∅ made d.words :=
  ⟨n.copy d, embed_eq hd halphabet, makes_copy hd halphabet⟩

end Embed

/-- A fragment is passed on the way to a node behind its exit. -/
theorem Wired.le_wordsTo {wires : List (Nat × Nat)} (h : Wired n.addPair.1 n' wires)
    (hf : n.Holds R f L) (hwire : (f.exit, q) ∈ wires) : L ≤ n'.wordsTo q f.entry := by
  have hold : n.addPair.1.wordsTo f.exit f.entry = n.words f :=
    wordsTo_congr (fun q hq => nodes_addPair (hf.lt_size q hq)) hf.toRegion rfl hf.entry_mem
  calc L = n.addPair.1.wordsTo f.exit f.entry * 1 := by rw [mul_one, hold, hf.words_eq]
    _ ≤ n'.wordsTo f.exit f.entry * n'.wordsTo q f.exit :=
        mul_le_mul' h.wordsTo_le (one_le_wordsTo.trans (h.wire_le hwire))
    _ ≤ n'.wordsTo q f.entry := mul_wordsTo_le f.exit

/-! ### Loops -/

/-- The new steps of a loop. -/
def loopWires (n : Nfa) (f : Fragment) : List (Nat × Nat) :=
  [(f.exit, n.size), (n.size, n.size + 1), (n.size, f.entry)]

theorem loopWires_mem (hf : n.Holds R f L) :
    ∀ wire ∈ n.loopWires f,
      wire.1 ∈ R ∪ n.added n.addPair.1 ∧ wire.2 ∈ R ∪ n.added n.addPair.1 := by
  have hentry : n.size ∈ R ∪ n.added n.addPair.1 := .inr entry_mem_added
  simp only [loopWires, List.forall_mem_cons]
  exact ⟨⟨.inl hf.exit_mem, hentry⟩, ⟨hentry, .inr exit_mem_added⟩, ⟨hentry, .inl hf.entry_mem⟩,
    by simp⟩

/-- From the branch of a loop its fragment can be passed any number of times. -/
theorem wordsTo_loop (hf : n.Holds R f L) (h : Wired n.addPair.1 n' (n.loopWires f)) :
    n'.wordsTo (n.size + 1) n.size = L∗ ∧ n'.wordsTo (n.size + 1) f.entry = L * L∗ := by
  classical
  let K (q : Nat) : Language Nat :=
    if q = n.size then L∗ else if q = n.size + 1 then 1 else n.wordsTo f.exit q * L∗
  have hKR : ∀ q ∈ R, K q = n.wordsTo f.exit q * L∗ := by
    intro q hq
    have hlt := hf.lt_size q hq
    have hne : q ≠ n.size := Nat.ne_of_lt hlt
    have hne' : q ≠ n.size + 1 := Nat.ne_of_lt (Nat.lt_succ_of_lt hlt)
    simp only [K, if_neg hne, if_neg hne']
  have hKbranch : K n.size = L∗ := if_pos rfl
  have hKexit : K (n.size + 1) = 1 := by simp [K]
  have hKentry : K f.entry = L * L∗ := by
    rw [hKR _ hf.entry_mem]
    exact congrArg (· * L∗) hf.words_eq
  -- The upper bound: what `K` says is respected by the steps of the fragment and by the three new
  -- ones, the star being closed under one more round.
  have hbound {p : Nat} (hp : p ∈ R ∪ n.added n.addPair.1) :
      n'.wordsTo (n.size + 1) p ≤ K p := by
    refine h.le_around hf.toRegion (loopWires_mem hf) ?_ (le_of_eq hKexit.symm) ?_ hp
    · exact (respects_wordsTo_mul f.exit L∗).congr hf.toRegion hKR
    simp only [loopWires, List.forall_mem_cons, hKbranch, hKexit, hKentry, hKR _ hf.exit_mem]
    exact ⟨le_mul_of_one_le_left' one_le_wordsTo, one_le_kstar, mul_kstar_le_kstar, by simp⟩
  -- the way once around the loop
  have hexit : (1 : Language Nat) ≤ n'.wordsTo (n.size + 1) n.size :=
    one_le_wordsTo.trans (h.wire_le (by simp [loopWires]))
  have hpass : L ≤ n'.wordsTo n.size f.entry := h.le_wordsTo hf (by simp [loopWires])
  have haround : L * n'.wordsTo (n.size + 1) n.size ≤ n'.wordsTo (n.size + 1) f.entry :=
    (mul_le_mul_left hpass _).trans (mul_wordsTo_le n.size)
  have hback : n'.wordsTo (n.size + 1) f.entry ≤ n'.wordsTo (n.size + 1) n.size :=
    h.wire_le (by simp [loopWires])
  have hstar : L∗ ≤ n'.wordsTo (n.size + 1) n.size :=
    kstar_le_of_mul_le_right hexit (haround.trans hback)
  refine ⟨le_antisymm ((hbound (.inr entry_mem_added)).trans (le_of_eq hKbranch)) hstar,
    le_antisymm ((hbound (.inl hf.entry_mem)).trans (le_of_eq hKentry)) ?_⟩
  exact (mul_le_mul_right hstar L).trans haround

/-! ### Operators on one fragment -/

section One

variable (hf : n.Holds R f L)

include hf

theorem exit_lt_size_addPair : f.exit < n.addPair.1.size := by
  have hlt := hf.lt_size _ hf.exit_mem
  rw [size_addPair]
  omega

theorem makes_star : Makes n R (n.star f) L∗ := by
  have hpair : n.size < n.addPair.1.size := entry_mem_added.2
  -- The last step connected stands first in the list of wires.
  have hwired := (((Wired.refl _).connectSilent (b := f.entry) hpair).connectSilent
    (b := n.size + 1) hpair).connectSilent (b := n.size) (exit_lt_size_addPair hf)
  rw [star, addPair_eq]
  exact hwired.makes hf.toRegion (loopWires_mem hf) (.inr entry_mem_added)
    (wordsTo_loop hf hwired).1

theorem makes_plus : Makes n R (n.plus f) (L * L∗) := by
  have hpair : n.size < n.addPair.1.size := entry_mem_added.2
  -- The steps are those of the star in another order; only the entry is a different node.
  have hsteps := (((Wired.refl _).connectSilent (b := n.size)
    (exit_lt_size_addPair hf)).connectSilent (b := f.entry) hpair).connectSilent
      (b := n.size + 1) hpair
  have hwired := hsteps.congr fun wire => show _ ↔ wire ∈ n.loopWires f by
    simp only [loopWires, List.mem_cons, List.not_mem_nil, or_false]
    tauto
  rw [plus, addPair_eq]
  exact hwired.makes hf.toRegion (loopWires_mem hf) (.inl hf.entry_mem) (wordsTo_loop hf hwired).2

/-- The fragment can be passed, or left out on a step of its own. -/
theorem makes_optional : Makes n R (n.optional f) (1 + L) := by
  classical
  have hpair : n.size < n.addPair.1.size := entry_mem_added.2
  have hwired := (((Wired.refl _).connectSilent (b := f.entry) hpair).connectSilent
    (b := n.size + 1) hpair).connectSilent (b := n.size + 1) (exit_lt_size_addPair hf)
  rw [optional, addPair_eq]
  have hentry : n.size ∈ R ∪ n.added n.addPair.1 := .inr entry_mem_added
  have hexit : n.size + 1 ∈ R ∪ n.added n.addPair.1 := .inr exit_mem_added
  have hmem : ∀ wire ∈ [(f.exit, n.size + 1), (n.size, n.size + 1), (n.size, f.entry)],
      wire.1 ∈ R ∪ n.added n.addPair.1 ∧ wire.2 ∈ R ∪ n.added n.addPair.1 := by
    simp only [List.forall_mem_cons]
    exact ⟨⟨.inl hf.exit_mem, hexit⟩, ⟨hentry, hexit⟩, ⟨hentry, .inl hf.entry_mem⟩, by simp⟩
  refine hwired.makes hf.toRegion hmem hentry (le_antisymm ?_ (add_le ?_ ?_))
  · let K (q : Nat) : Language Nat :=
      if q = n.size then 1 + L else if q = n.size + 1 then 1 else n.wordsTo f.exit q * 1
    have hKR : ∀ q ∈ R, K q = n.wordsTo f.exit q * 1 := by
      intro q hq
      have hlt := hf.lt_size q hq
      simp only [K, if_neg (Nat.ne_of_lt hlt), if_neg (Nat.ne_of_lt (Nat.lt_succ_of_lt hlt))]
    have hKentry : K n.size = 1 + L := if_pos rfl
    have hKexit : K (n.size + 1) = 1 := by simp [K]
    have hKinner : K f.entry = L := by
      rw [hKR _ hf.entry_mem, mul_one]
      exact hf.words_eq
    rw [← hKentry]
    refine hwired.le_around hf.toRegion hmem ?_ (le_of_eq hKexit.symm) ?_ hentry
    · exact (respects_wordsTo_mul f.exit 1).congr hf.toRegion hKR
    simp only [List.forall_mem_cons, hKentry, hKexit, hKinner, hKR _ hf.exit_mem, mul_one]
    exact ⟨one_le_wordsTo, le_add_right le_rfl, le_add_left le_rfl, by simp⟩
  · exact one_le_wordsTo.trans (hwired.wire_le (by simp))
  · exact (hwired.le_wordsTo hf (by simp)).trans (hwired.wire_le (by simp))

end One

/-- A sequence holds a word of each fragment in turn. -/
theorem makes_sequence {fs : List Fragment} {Ls : List (Language Nat)} (h : n.Aligned R fs Ls) :
    Makes n R (n.sequence fs) Ls.prod := by
  cases h with
  | nil => exact makes_epsilon
  | @cons R S f L fs Ls hf hfs hdisjoint =>
    obtain ⟨hchanges, hholds⟩ := holds_link hf hfs hdisjoint
    refine ⟨hchanges, ?_⟩
    rw [sequence, added_eq_empty (size_link _), Set.union_empty, List.prod_cons,
      List.getLastD_cons]
    exact hholds

/-! ### Choices -/

section Choice

variable {fs : List Fragment} {Ls : List (Language Nat)} {wires : List (Nat × Nat)}

theorem Aligned.eq_map_words (h : n.Aligned R fs Ls) : Ls = fs.map n.words := by
  induction h with
  | nil => rfl
  | cons hf _ _ ih => rw [List.map_cons, hf.words_eq, ih]

theorem Aligned.mem (h : n.Aligned R fs Ls) (hf : f ∈ fs) : f.entry ∈ R ∧ f.exit ∈ R := by
  induction h with
  | nil => cases hf
  | @cons R S g _ fs _ hg _ _ ih =>
    rcases List.mem_cons.1 hf with rfl | hf
    · exact ⟨.inl hg.entry_mem, .inl hg.exit_mem⟩
    · exact ⟨.inr (ih hf).1, .inr (ih hf).2⟩

theorem Aligned.exists_holds (h : n.Aligned R fs Ls) (hf : f ∈ fs) :
    ∃ S, n.Holds S f (n.words f) := by
  induction h with
  | nil => cases hf
  | @cons R S g _ fs _ hg _ _ ih =>
    rcases List.mem_cons.1 hf with rfl | hf
    · exact ⟨R, hg.toRegion, hg.entry_mem, hg.exit_mem, rfl⟩
    · exact ih hf

theorem Aligned.exit_lt (h : n.Aligned R fs Ls) : ∀ f ∈ fs, f.exit < n.size := by
  intro f hf
  obtain ⟨S, hholds⟩ := h.exists_holds hf
  exact hholds.lt_size _ hholds.exit_mem

/-- No path leaves a region. -/
theorem Region.wordsTo_eq_zero (hR : n.Region R) (hp : p ∈ R) (hq : q ∉ R) :
    n.wordsTo q p = 0 := by
  classical
  let K (p : Nat) : Language Nat := if p ∈ R then 0 else 1
  have hzero : ∀ p ∈ R, K p = 0 := fun p hp => if_pos hp
  have hK : n.Respects R K := by
    refine ⟨?_, ?_⟩
    · intro p hp q hstep
      rw [hzero p hp, hzero q (hR.silent_mem p hp q hstep)]
    · intro p hp r q hstep s _
      rw [hzero p hp, hzero q (hR.edge_mem p hp r q hstep), mul_zero]
  have hle : n.wordsTo q p ≤ K p := wordsTo_le hR hK (le_of_eq (if_neg hq).symm) hp
  rw [hzero p hp] at hle
  exact le_antisymm hle bot_le

variable (n) in
/-- The words to any one of some exits. -/
def wordsToAny (fs : List Fragment) (p : Nat) : Language Nat :=
  (fs.map fun f => n.wordsTo f.exit p).sum

theorem respects_wordsToAny (fs : List Fragment) : n.Respects R (n.wordsToAny fs) := by
  induction fs with
  | nil => exact ⟨fun _ _ _ _ => le_rfl, fun _ _ _ _ _ _ _ => le_of_eq (mul_zero _)⟩
  | cons f fs ih =>
    refine ⟨?_, ?_⟩
    · intro p hp q hstep
      exact add_le_add (wordsTo_le_of_silent hstep) (ih.silent_le p hp q hstep)
    · intro p hp r q hstep s hs
      rw [wordsToAny, List.map_cons, List.sum_cons, mul_add]
      exact add_le_add (symbol_mul_wordsTo_le hstep hs) (ih.symbol_le p hp r q hstep s hs)

theorem one_le_wordsToAny (hf : f ∈ fs) : 1 ≤ n.wordsToAny fs f.exit := by
  induction fs with
  | nil => cases hf
  | cons g fs ih =>
    rw [wordsToAny, List.map_cons, List.sum_cons]
    rcases List.mem_cons.1 hf with rfl | hf
    · exact le_add_right one_le_wordsTo
    · exact le_add_left (ih hf)

/-- From outside of a row of fragments no path leads to their exits. -/
theorem Aligned.wordsToAny_eq_zero (h : n.Aligned S fs Ls) (hR : n.Region R) (hp : p ∈ R)
    (hdisjoint : Disjoint R S) : n.wordsToAny fs p = 0 := by
  induction h with
  | nil => rfl
  | cons hg _ _ ih =>
    rw [Set.disjoint_union_right] at hdisjoint
    rw [wordsToAny, List.map_cons, List.sum_cons,
      hR.wordsTo_eq_zero hp (Set.disjoint_right.1 hdisjoint.1 hg.exit_mem), zero_add]
    exact ih hdisjoint.2

/-- From an entry the only exit in reach is that of its own fragment. -/
theorem Aligned.wordsToAny_entry (h : n.Aligned R fs Ls) (hf : f ∈ fs) :
    n.wordsToAny fs f.entry ≤ Ls.sum := by
  induction h with
  | nil => cases hf
  | @cons R S g _ fs _ hg hfs hdisjoint ih =>
    rw [wordsToAny, List.map_cons, List.sum_cons, List.sum_cons]
    rcases List.mem_cons.1 hf with rfl | hf
    -- Either the entry is that of the first fragment, from which the other exits are out of reach,
    -- or it lies in the rest, from which the first exit is.
    · have hrest := hfs.wordsToAny_eq_zero hg.toRegion hg.entry_mem hdisjoint
      rw [wordsToAny] at hrest
      rw [hrest, add_zero]
      exact le_add_right (le_of_eq hg.words_eq)
    · have hfirst := hfs.region.wordsTo_eq_zero (hfs.mem hf).1
        (Set.disjoint_left.1 hdisjoint hg.exit_mem)
      rw [hfirst, zero_add]
      exact le_add_left (ih hf)

/-- The new steps of a choice. -/
def choiceWires (n : Nfa) (fs : List Fragment) : List (Nat × Nat) :=
  fs.flatMap fun f => [(f.exit, n.size + 1), (n.size, f.entry)]

theorem mem_choiceWires {wire : Nat × Nat} : wire ∈ n.choiceWires fs ↔
    ∃ f ∈ fs, wire = (f.exit, n.size + 1) ∨ wire = (n.size, f.entry) := by
  simp [choiceWires]

theorem Wired.foldl (h : Wired n n' wires) (hp : p < n.size) (hfs : ∀ f ∈ fs, f.exit < n.size) :
    Wired n (fs.foldl (fun n f => (n.connectSilent p f.entry).connectSilent f.exit q) n')
      ((fs.flatMap fun f => [(f.exit, q), (p, f.entry)]) ++ wires) := by
  induction fs generalizing n' wires with
  | nil => exact h
  | cons f fs ih =>
    rw [List.forall_mem_cons] at hfs
    have hstep := (h.connectSilent (b := f.entry) hp).connectSilent (b := q) hfs.1
    refine (ih hstep hfs.2).congr fun wire => ?_
    simp only [List.flatMap_cons, List.mem_append, List.mem_cons, List.not_mem_nil, or_false]
    tauto

theorem sum_le_of_forall {α : Type} {Ls : List (Language α)} {M : Language α}
    (h : ∀ L ∈ Ls, L ≤ M) : Ls.sum ≤ M := by
  induction Ls with
  | nil => exact bot_le
  | cons L Ls ih =>
    rw [List.forall_mem_cons] at h
    rw [List.sum_cons]
    exact add_le h.1 (ih h.2)

/-- Two nodes around a row of fragments. -/
theorem makes_choice (h : n.Aligned R fs Ls) : Makes n R
    (fs.foldl (fun n' f => (n'.connectSilent n.size f.entry).connectSilent f.exit (n.size + 1))
      n.addPair.1, ⟨n.size, n.size + 1⟩) Ls.sum := by
  classical
  have hpair : n.size < n.addPair.1.size := entry_mem_added.2
  have hexits : ∀ f ∈ fs, f.exit < n.addPair.1.size := fun f hf =>
    exit_lt_size_addPair (h.exists_holds hf).choose_spec
  -- The loop over the fragments connects each of them with both new nodes.
  have hsteps := (Wired.refl n.addPair.1).foldl (q := n.size + 1) hpair hexits
  rw [List.append_nil] at hsteps
  have hwired : Wired n.addPair.1 _ (n.choiceWires fs) := hsteps
  have hentry : n.size ∈ R ∪ n.added n.addPair.1 := .inr entry_mem_added
  have hexit : n.size + 1 ∈ R ∪ n.added n.addPair.1 := .inr exit_mem_added
  have hmem : ∀ wire ∈ n.choiceWires fs,
      wire.1 ∈ R ∪ n.added n.addPair.1 ∧ wire.2 ∈ R ∪ n.added n.addPair.1 := by
    intro wire hwire
    obtain ⟨f, hf, rfl | rfl⟩ := mem_choiceWires.1 hwire
    · exact ⟨.inl (h.mem hf).2, hexit⟩
    · exact ⟨hentry, .inl (h.mem hf).1⟩
  refine hwired.makes h.region hmem hentry (le_antisymm ?_ ?_)
  · let K (q : Nat) : Language Nat :=
      if q = n.size then Ls.sum else if q = n.size + 1 then 1 else n.wordsToAny fs q
    -- Inside of the regions the bound counts the words to any exit, since from there the path goes
    -- on to the exit of the choice at once.
    have hKR : ∀ q ∈ R, K q = n.wordsToAny fs q := by
      intro q hq
      have hlt := h.region.lt_size q hq
      simp only [K, if_neg (Nat.ne_of_lt hlt), if_neg (Nat.ne_of_lt (Nat.lt_succ_of_lt hlt))]
    have hKentry : K n.size = Ls.sum := if_pos rfl
    have hKexit : K (n.size + 1) = 1 := by simp [K]
    rw [← hKentry]
    refine hwired.le_around h.region hmem ?_ (le_of_eq hKexit.symm) ?_ hentry
    · exact (respects_wordsToAny fs).congr h.region hKR
    · intro wire hwire
      obtain ⟨f, hf, rfl | rfl⟩ := mem_choiceWires.1 hwire
      · rw [hKexit, hKR _ (h.mem hf).2]
        exact one_le_wordsToAny hf
      · rw [hKentry, hKR _ (h.mem hf).1]
        exact h.wordsToAny_entry hf
  · rw [h.eq_map_words]
    refine sum_le_of_forall ?_
    intro L hL
    obtain ⟨f, hf, rfl⟩ := List.mem_map.1 hL
    obtain ⟨S, hholds⟩ := h.exists_holds hf
    have hpass : n.words f ≤ _ := hwired.le_wordsTo hholds (mem_choiceWires.2 ⟨f, hf, .inl rfl⟩)
    exact hpass.trans (hwired.wire_le (mem_choiceWires.2 ⟨f, hf, .inr rfl⟩))

/-- A choice of one fragment is that fragment. -/
theorem makes_alternation (h : n.Aligned R fs Ls) : Makes n R (n.alternation fs) Ls.sum := by
  match fs, h with
  | [], h =>
    rw [show n.alternation [] = n.addPair from rfl, addPair_eq]
    exact makes_choice h
  | [f], .cons hf hfs _ =>
    cases hfs
    rw [Set.union_empty, List.sum_singleton]
    refine ⟨.refl _ _, ?_⟩
    rw [show n.alternation [f] = (n, f) from rfl, added_eq_empty rfl, Set.union_empty]
    exact hf
  | f :: g :: fs, h =>
    unfold alternation
    rw [addPair_eq]
    exact makes_choice h

end Choice

end CallChain.Nfa
