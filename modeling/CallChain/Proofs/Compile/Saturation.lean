import CallChain.Compile.Saturation
import CallChain.Proofs.Compile.Fragment
import CallChain.Proofs.Finite.Prefixes

/-!
# Saturated automata

The states of a saturated automaton are the positions of a chain. A state tracks a position if it
accepts what the looped automaton accepts from the state that the actions taken so far lead to; then
the actions offered at the position are those the state can take, and they lead on in the same way
(`Tracks.offers_iff`, `Tracks.next`).

* `Scope.isChain_close`, `Scope.close_eq_self`: closed languages are prefix-closed and hold actions
  only, and closing changes no such language.
* `next_terminator`, `next_untaken`: terminators, and actions that no chain takes, lead back to
  their own state.
* `exists_next_global`: every state takes the global actions.
-/

namespace CallChain

/-! ### Languages of chains -/

/-- A prefix-closed language of actions that is not empty. -/
structure IsChain (L : Language SymbolKind) : Prop where
  nil_mem : [] ∈ L
  of_append : ∀ u v, u ++ v ∈ L → u ∈ L
  action : ∀ w ∈ L, ∀ k ∈ w, ∃ id, k = .action id

namespace Scope

variable {L : Language SymbolKind} {u v : List SymbolKind}

theorem Passes.of_prefix (h : Passes L u) (hv : v <+: u) : Passes L v where
  mem_prefixes := by
    obtain ⟨rest, rfl⟩ := hv
    obtain ⟨after, hafter⟩ := h.mem_prefixes
    exact ⟨rest ++ after, by rwa [← List.append_assoc]⟩
  kinds k hk := h.kinds k (hv.mem hk)
  head_ne := by
    obtain ⟨rest, rfl⟩ := hv
    cases v with
    | nil => simp
    | cons k v => exact h.head_ne
  not_ended p hp hne := by
    refine h.not_ended p (hp.trans hv) ?_
    rintro rfl
    exact hne (hp.eq_of_length_le hv.length_le)

/-- Closed languages are prefix-closed and hold actions only. -/
theorem isChain_close (L : Language SymbolKind) : IsChain (close L) where
  nil_mem := .inl rfl
  of_append u v huv := by
    rcases huv with huv | ⟨w, hw, heq⟩
    · exact .inl (List.append_eq_nil_iff.1 huv).1
    · obtain ⟨w', w'', rfl, rfl, -⟩ := List.filter_eq_append_iff.1 heq
      exact .inr ⟨w', hw.of_prefix (List.prefix_append _ _), rfl⟩
  action w hw k hk := by
    rcases hw with rfl | ⟨u, hu, rfl⟩
    · cases hk
    · obtain ⟨hmem, hne⟩ := List.mem_filter.1 hk
      rcases hu.kinds k hmem with rfl | haction
      · simp at hne
      · exact haction

/-- A closed language is its own closure. -/
theorem close_eq_self (hL : IsChain L) : close L = L := by
  have hanchor {mark : Anchor} {w : List SymbolKind} (hw : w ∈ L) : .anchor mark ∉ w := by
    intro hmem
    obtain ⟨id, hid⟩ := hL.action w hw _ hmem
    cases hid
  have hfilter {w : List SymbolKind} (hw : w ∈ L) : w.filter (· ≠ .anchor .inner) = w := by
    refine List.filter_eq_self.2 fun k hk => decide_eq_true ?_
    rintro rfl
    exact hanchor hw hk
  have hinside : prefixes (inside L) = L := by
    ext u
    constructor
    · rintro ⟨v, -, hv | hv⟩
      · exact hL.of_append u v hv
      · exact absurd List.mem_cons_self (hanchor hv)
    · intro hu
      refine ⟨[], ?_, .inl ?_⟩
      · rw [List.append_nil]
        exact hanchor hu
      · rwa [List.append_nil]
  ext w
  constructor
  · rintro (rfl | ⟨u, hu, rfl⟩)
    · exact hL.nil_mem
    · have hmem : u ∈ L := hinside ▸ hu.mem_prefixes
      rwa [hfilter hmem]
  · intro hw
    refine .inr ⟨w, ⟨?_, fun k hk => .inr (hL.action w hw k hk), ?_, ?_⟩, hfilter hw⟩
    · rwa [hinside]
    · exact fun hhead => hanchor hw (List.mem_of_mem_head? hhead)
    · intro p _ _ hstop
      rw [hinside] at hstop
      exact hanchor hstop (List.mem_append_right p (List.mem_singleton_self _))

end Scope

/-! ### Loops -/

namespace Alphabet

/-- Where a symbol leads from a state that leads to `target` so far. -/
def loopTarget (globals terminators : List Nat) (state symbol : Nat) (target : Option Nat) :
    Option Nat :=
  let target := if globals.contains symbol then target <|> some state else target
  if terminators.contains symbol then target.map fun _ => state else target

/-- The automaton with the loops of global actions and of terminators. -/
def addLoops (globals terminators : List Nat) (d : Dfa) : Dfa :=
  let loop (state : Nat) (row : Row) : Row :=
    { row with targets := row.targets.mapIdx (loopTarget globals terminators state) }
  { d with rows := d.rows.mapIdx loop }

/-- The saturated automaton, all transitions at once. -/
def saturate (a : Alphabet) (t : ActionTable) (d : Dfa) : Dfa :=
  let globals := t.globals.map a.symbol
  let terminators := t.terminators.map a.symbol
  (addLoops globals terminators d.minimize.acceptAll).minimize

variable {t : ActionTable} {d : Dfa} {q q' s : Nat} {globals terminators : List Nat}
  {target : Option Nat} {id : ActionId}

theorem isSome_loopTarget : (loopTarget globals terminators q s target).isSome = true ↔
    target.isSome = true ∨ s ∈ globals := by
  unfold loopTarget
  by_cases hg : s ∈ globals <;> by_cases ht : s ∈ terminators <;> cases target <;> simp [hg, ht]

/-- A terminator leads back to its own state. -/
theorem loopTarget_terminator (h : s ∈ terminators)
    (hq : loopTarget globals terminators q s target = some q') : q' = q := by
  unfold loopTarget at hq
  simp only [List.contains_iff_mem.2 h, if_true, Option.map_eq_some_iff] at hq
  obtain ⟨_, -, rfl⟩ := hq
  rfl

/-- Any other symbol leads where it led, or back if it is that of a global action. -/
theorem loopTarget_other (h : s ∉ terminators)
    (hq : loopTarget globals terminators q s target = some q') : q' = target.getD q := by
  unfold loopTarget at hq
  by_cases hg : s ∈ globals <;> cases target <;> simp_all

/-- Loops are added once. -/
theorem loopTarget_loopTarget : loopTarget globals terminators q s
    (loopTarget globals terminators q s target) = loopTarget globals terminators q s target := by
  unfold loopTarget
  by_cases hg : s ∈ globals <;> by_cases ht : s ∈ terminators <;> cases target <;> simp [hg, ht]

theorem loopTarget_of_not_mem (h : ¬(s ∈ globals ∨ s ∈ terminators)) :
    loopTarget globals terminators q s target = target := by
  obtain ⟨hg, ht⟩ := not_or.1 h
  simp [loopTarget, hg, ht]

theorem targets_addLoops : (addLoops globals terminators d).targets q =
    (d.targets q).mapIdx (loopTarget globals terminators q) := by
  unfold Dfa.targets addLoops
  rw [Array.getElem?_mapIdx]
  cases d.rows[q]? <;> rfl

@[simp] theorem size_addLoops : (addLoops globals terminators d).size = d.size := by
  simp [addLoops, Dfa.size]

@[simp] theorem isAccepting_addLoops :
    (addLoops globals terminators d).isAccepting q = d.isAccepting q := by
  unfold Dfa.isAccepting addLoops
  rw [Array.getElem?_mapIdx]
  cases d.rows[q]? <;> rfl

theorem next_addLoops (hd : d.WellFormed) (hq : q < d.size) (hs : s < d.alphabet) :
    (addLoops globals terminators d).next q s =
      loopTarget globals terminators q s (d.next q s) := by
  rw [Dfa.next, targets_addLoops, List.getElem?_mapIdx, hd.getElem?_targets hq hs]
  rfl

theorem wellFormed_addLoops (hd : d.WellFormed) : (addLoops globals terminators d).WellFormed where
  initial_lt := by
    rw [size_addLoops]
    exact hd.initial_lt
  length_targets q hq := by
    rw [targets_addLoops, List.length_mapIdx]
    exact hd.length_targets q (size_addLoops ▸ hq)
  next_lt := by
    intro q s q' hnext
    have hq : q < d.size := by
      have := Dfa.lt_size_of_next hnext
      rwa [size_addLoops] at this
    have hs : s < d.alphabet := by
      by_contra hs
      rw [Dfa.next, targets_addLoops, List.getElem?_mapIdx,
        hd.getElem?_targets_eq_none hq (Nat.le_of_not_lt hs)] at hnext
      cases hnext
    rw [next_addLoops hd hq hs] at hnext
    rw [size_addLoops]
    by_cases ht : s ∈ terminators
    · rw [loopTarget_terminator ht hnext]
      exact hq
    · rw [loopTarget_other ht hnext]
      cases hbase : d.next q s with
      | none => exact hq
      | some o => exact hd.next_lt hbase

/-! ### One loop after the other -/

section Loops

variable (hglobals : ∀ s ∈ globals, s < d.alphabet)
  (hterminators : ∀ s ∈ terminators, s < d.alphabet)

include hglobals hterminators

/-- A state gets its loops: those of global actions first. -/
theorem exists_loopState (hd : d.WellFormed) (hq : q < d.size) :
    ∃ e, loopState globals terminators d q = .ok e ∧
      Dfa.Rewired (fun q' s => q' = q ∧ (s ∈ globals ∨ s ∈ terminators))
        (loopTarget globals terminators) d e := by
  obtain ⟨d₁, hfirst, hrewired⟩ := Dfa.exists_foldlM_retarget (· <|> some q) globals
    (fun target => by cases target <;> rfl)
    (fun target htarget t ht => by
      cases target with
      | none => exact Option.some.inj ht ▸ hq
      | some o => exact htarget t ht) hd hq hglobals
  have hq₁ : q < d₁.size := hrewired.size_eq ▸ hq
  obtain ⟨e, hlast, hrewired'⟩ := Dfa.exists_foldlM_retarget (Option.map fun _ => q)
    terminators (fun target => by cases target <;> rfl)
    (fun target _ t ht => by
      obtain ⟨_, -, rfl⟩ := Option.map_eq_some_iff.1 ht
      exact hq₁) hrewired.toWellFormed hq₁ (hrewired.alphabet_eq ▸ hterminators)
  have hnext (s : Nat) : e.next q s = loopTarget globals terminators q s (d.next q s) := by
    have hglobal : d₁.next q s =
        if globals.contains s then d.next q s <|> some q else d.next q s := by
      split
      next hs => exact hrewired.next_touched q s ⟨rfl, List.contains_iff_mem.1 hs⟩
      next hs => exact hrewired.next_kept q s fun h => hs (List.contains_iff_mem.2 h.2)
    rw [loopTarget, ← hglobal]
    split
    next hs => exact hrewired'.next_touched q s ⟨rfl, List.contains_iff_mem.1 hs⟩
    next hs => exact hrewired'.next_kept q s fun h => hs (List.contains_iff_mem.2 h.2)
  refine ⟨e, ?_, hrewired'.toWellFormed, hrewired'.alphabet_eq.trans hrewired.alphabet_eq,
    hrewired'.size_eq.trans hrewired.size_eq, hrewired'.initial_eq.trans hrewired.initial_eq,
    fun q' => (hrewired'.isAccepting_eq q').trans (hrewired.isAccepting_eq q'), ?_, ?_⟩
  · rw [loopState, hfirst]
    exact hlast
  · rintro _ s ⟨rfl, -⟩
    exact hnext s
  · intro q' s hkept
    by_cases hq' : q' = q
    · subst hq'
      rw [hnext, loopTarget_of_not_mem fun h => hkept ⟨rfl, h⟩]
    · rw [hrewired'.next_kept q' s fun h => hq' h.1, hrewired.next_kept q' s fun h => hq' h.1]

/-- Adding the loops one after the other adds them all. -/
theorem loopStates_eq (hd : d.WellFormed) :
    d.states.foldlM (loopState globals terminators) d = .ok (addLoops globals terminators d) := by
  obtain ⟨e, he, hrewired⟩ := Dfa.exists_foldlM_rewired (loopTarget globals terminators)
    (loopState globals terminators)
    (fun q q' s => q' = q ∧ (s ∈ globals ∨ s ∈ terminators)) d.states
    (fun _ _ _ => loopTarget_loopTarget) hd
    fun d' hd' halphabet hsize q hq => exists_loopState (halphabet ▸ hglobals)
      (halphabet ▸ hterminators) hd' (hsize ▸ List.mem_range.1 hq)
  have hsame : e = addLoops globals terminators d := by
    refine hrewired.toWellFormed.ext (wellFormed_addLoops hd) hrewired.alphabet_eq
      (hrewired.size_eq.trans size_addLoops.symm) hrewired.initial_eq
      (fun q _ => (hrewired.isAccepting_eq q).trans isAccepting_addLoops.symm)
      fun q hq s hs => ?_
    have hq : q < d.size := hrewired.size_eq ▸ hq
    rw [next_addLoops hd hq (hrewired.alphabet_eq ▸ hs)]
    by_cases htouched : s ∈ globals ∨ s ∈ terminators
    · exact hrewired.next_touched q s ⟨q, List.mem_range.2 hq, rfl, htouched⟩
    · rw [hrewired.next_kept q s fun ⟨_, _, _, h⟩ => htouched h, loopTarget_of_not_mem htouched]
  rw [he, hsame]

end Loops

/-! ### Symbols of flagged actions -/

theorem symbol_mem_map_iff {ids : List ActionId} (hids : ∀ i ∈ ids, i ∈ t.ids) (hid : id ∈ t.ids) :
    (ofTable t).symbol id ∈ ids.map (ofTable t).symbol ↔ id ∈ ids := by
  rw [List.mem_map]
  constructor
  · rintro ⟨i, hi, heq⟩
    have haction := action?_symbol (mem_actions.2 hid)
    rw [← heq, action?_symbol (mem_actions.2 (hids i hi))] at haction
    cases haction
    exact hi
  · exact fun h => ⟨id, h, rfl⟩

theorem symbol_mem_globals_iff (hid : id ∈ t.ids) :
    (ofTable t).symbol id ∈ t.globals.map (ofTable t).symbol ↔
      t.holds (·.isGlobal) id = true := by
  rw [symbol_mem_map_iff (fun i hi => ActionTable.mem_ids_of_holds (ActionTable.mem_globals.1 hi))
    hid, ActionTable.mem_globals]

theorem symbol_mem_terminators_iff (hid : id ∈ t.ids) :
    (ofTable t).symbol id ∈ t.terminators.map (ofTable t).symbol ↔
      t.holds (·.isTerminator) id = true := by
  have hids : ∀ i ∈ t.terminators, i ∈ t.ids := fun i hi => (List.mem_filter.1 hi).1
  rw [symbol_mem_map_iff hids hid, ActionTable.terminators, List.mem_filter]
  exact ⟨And.right, fun h => ⟨hid, h⟩⟩

/-! ### The automaton of a chain language -/

section Chain

variable {L : Language SymbolKind} {u v : List SymbolKind} {w : List Nat}

/-- The letters of a represented word are actions of the table and anchors. -/
theorem Represents.mem_ids (hd : (ofTable t).Represents d L) (hu : u ∈ L) (hid : .action id ∈ u) :
    id ∈ t.ids := by
  have hlt := hd.lt_alphabet_of_mem (hd.mem_iff.2 hu) _ (List.mem_map_of_mem hid)
  by_contra hmem
  have := size_le_code (a := ofTable t) fun h => hmem (mem_actions.1 h)
  rw [hd.alphabet_eq] at hlt
  omega

theorem Represents.symbol_lt_alphabet (hd : (ofTable t).Represents d L) (hid : id ∈ t.ids) :
    (ofTable t).symbol id < d.alphabet := by
  rw [hd.alphabet_eq]
  exact Nat.lt_trans (symbol_lt (mem_actions.2 hid)) (actionCount_lt_size _)

variable (hd : (ofTable t).Represents d L) (hL : IsChain L)

include hd hL

theorem live_minimize : ∀ q < d.minimize.size, ∃ w, w ∈ d.minimize.wordsFrom q :=
  (Dfa.minimal_minimize hd.toWellFormed).live_of_mem (hd.minimize.mem_iff.2 hL.nil_mem)

/-- Chains are what can be run. -/
theorem mem_iff_exists_run : u ∈ L ↔
    ∃ q, d.minimize.run d.minimize.initial (u.map (ofTable t).code) = some q := by
  rw [Dfa.exists_run_iff_of_live hd.minimize.toWellFormed (live_minimize hd hL),
    ← hd.minimize.mem_iff]
  constructor
  · intro hu
    refine ⟨[], ?_⟩
    rwa [List.append_nil]
  · rintro ⟨w, hw⟩
    obtain ⟨v, rfl⟩ := exists_map_code_eq fun s hs =>
      hd.minimize.alphabet_eq ▸ hd.minimize.lt_alphabet_of_mem hw s (List.mem_append_right _ hs)
    rw [← List.map_append, hd.minimize.mem_iff] at hw
    exact hd.minimize.mem_iff.2 (hL.of_append u v hw)

/-- A transition is the last action of some chain. -/
theorem exists_word_of_next (h : d.minimize.next q s = some q') :
    ∃ u id, u ++ [.action id] ∈ L ∧ id ∈ t.ids ∧ (ofTable t).symbol id = s := by
  have hminimal := Dfa.minimal_minimize hd.toWellFormed
  obtain ⟨w, hw⟩ := hminimal.reached q (Dfa.lt_size_of_next h)
  rw [← hminimal.initial_eq] at hw
  have hs : s < (ofTable t).size := hd.minimize.alphabet_eq ▸ hminimal.symbol_lt h
  obtain ⟨u, rfl⟩ := exists_map_code_eq fun s hs =>
    hd.minimize.alphabet_eq ▸ hminimal.lt_alphabet_of_run hw s hs
  obtain ⟨k, rfl⟩ := exists_code_eq hs
  have hmem : u ++ [k] ∈ L := by
    rw [mem_iff_exists_run hd hL, List.map_append, Dfa.run_append, hw]
    exact ⟨q', by rw [Option.bind_some, List.map_singleton, Dfa.run_singleton, h]⟩
  have hk : k ∈ u ++ [k] := List.mem_append_right _ (List.mem_singleton_self k)
  obtain ⟨id, rfl⟩ := hL.action _ hmem k hk
  have hid := hd.mem_ids hmem hk
  exact ⟨u, id, hmem, hid, (code_action (mem_actions.2 hid)).symm⟩

/-- All transitions are on actions. -/
theorem exists_symbol_of_next (h : d.minimize.next q s = some q') :
    ∃ id ∈ t.ids, (ofTable t).symbol id = s := by
  obtain ⟨-, id, -, hid, hs⟩ := exists_word_of_next hd hL h
  exact ⟨id, hid, hs⟩

end Chain

/-! ### Saturated automata -/

variable (t d) in
/-- The automaton with its loops, before it is minimized again. -/
def looped : Dfa :=
  addLoops (t.globals.map (ofTable t).symbol) (t.terminators.map (ofTable t).symbol)
    d.minimize.acceptAll

section Looped

variable {L : Language SymbolKind} {w : List Nat} {z z' : Nat}

@[simp] theorem size_looped : (looped t d).size = d.minimize.size := by
  rw [looped, size_addLoops, Dfa.size_acceptAll]

theorem wellFormed_looped (hd : d.WellFormed) : (looped t d).WellFormed :=
  wellFormed_addLoops (Dfa.minimal_minimize hd).toWellFormed.acceptAll

/-- The symbols of some actions are found in the table of symbols. -/
theorem mapM_readAt_symbolTable {table : Array Nat} {ids : List ActionId}
    (htable : ∀ id ∈ t.ids, table[id.index]? = some ((ofTable t).symbol id))
    (hids : ∀ id ∈ ids, id ∈ t.ids) :
    ids.mapM (fun id => readAt table id.index) = .ok (ids.map (ofTable t).symbol) :=
  mapM_eq_ok fun id hid => readAt_of_getElem? (htable id (hids id hid))

/-- Saturating refuses no automaton over the alphabet of the actions. -/
theorem saturated_eq (hd : d.WellFormed) (halphabet : d.alphabet = (ofTable t).size) :
    (ofTable t).saturated t d = .ok ((ofTable t).saturate t d) := by
  obtain ⟨table, htable, hsymbols⟩ := exists_symbolTable (t := t)
  have hglobals : ∀ id ∈ t.globals, id ∈ t.ids := fun id hid =>
    ActionTable.mem_ids_of_holds (ActionTable.mem_globals.1 hid)
  have hterminators : ∀ id ∈ t.terminators, id ∈ t.ids := fun id hid =>
    List.mem_of_mem_filter hid
  have hlt {ids : List ActionId} (hids : ∀ id ∈ ids, id ∈ t.ids) :
      ∀ s ∈ ids.map (ofTable t).symbol, s < d.alphabet := by
    intro s hs
    obtain ⟨id, hid, rfl⟩ := List.mem_map.1 hs
    rw [halphabet]
    exact Nat.lt_trans (symbol_lt (mem_actions.2 (hids id hid))) (actionCount_lt_size (ofTable t))
  have hloops := loopStates_eq (d := d.minimize.acceptAll) (hlt hglobals) (hlt hterminators)
    (Dfa.minimal_minimize hd).toWellFormed.acceptAll
  rw [saturated, Dfa.minimized_eq hd, ok_bind, htable, ok_bind,
    mapM_readAt_symbolTable hsymbols hglobals, ok_bind,
    mapM_readAt_symbolTable hsymbols hterminators, ok_bind, hloops]
  exact Dfa.minimized_eq (wellFormed_looped hd)

theorem next_looped (hd : d.WellFormed) (hq : q < d.minimize.size) (hs : s < d.alphabet) :
    (looped t d).next q s = loopTarget (t.globals.map (ofTable t).symbol)
      (t.terminators.map (ofTable t).symbol) q s (d.minimize.next q s) := by
  have hwf := (Dfa.minimal_minimize hd).toWellFormed.acceptAll
  rw [looped, next_addLoops hwf (by rwa [Dfa.size_acceptAll]) hs, Dfa.next_acceptAll]

/-- Every run of the looped automaton is accepted. -/
theorem mem_wordsFrom_looped (hd : d.WellFormed) (hq : q < d.minimize.size) :
    w ∈ (looped t d).wordsFrom q ↔ ∃ q', (looped t d).run q w = some q' := by
  rw [Dfa.mem_wordsFrom]
  constructor
  · rintro ⟨q', hq', -⟩
    exact ⟨q', hq'⟩
  · rintro ⟨q', hq'⟩
    have hlt := (wellFormed_looped hd).run_lt (by rwa [size_looped]) hq'
    refine ⟨q', hq', ?_⟩
    rw [looped, isAccepting_addLoops]
    exact Dfa.isAccepting_acceptAll (by rwa [size_looped] at hlt)

variable (t d) in
/-- A state of the saturated automaton that accepts what a state of the looped automaton accepts. -/
def Mirrors (z q : Nat) : Prop :=
  z < ((ofTable t).saturate t d).size ∧ q < d.minimize.size ∧
    ((ofTable t).saturate t d).wordsFrom z = (looped t d).wordsFrom q

theorem minimal_saturate (hd : d.WellFormed) : ((ofTable t).saturate t d).Minimal :=
  Dfa.minimal_minimize (wellFormed_looped hd)

theorem lt_alphabet_of_next_saturate (hd : d.WellFormed)
    (h : ((ofTable t).saturate t d).next z s = some z') : s < d.alphabet := by
  have halphabet : ((ofTable t).saturate t d).alphabet = d.alphabet := by
    calc ((ofTable t).saturate t d).alphabet = (looped t d).alphabet := Dfa.alphabet_minimize
      _ = d.minimize.alphabet := rfl
      _ = d.alphabet := Dfa.alphabet_minimize
  rw [← halphabet]
  exact (minimal_saturate hd).symbol_lt h

theorem words_saturate (hd : d.WellFormed) :
    ((ofTable t).saturate t d).words = (looped t d).words :=
  Dfa.words_minimize (wellFormed_looped hd)

theorem initial_minimize_lt (hd : d.WellFormed) : d.minimize.initial < d.minimize.size :=
  (Dfa.minimal_minimize hd).initial_lt

theorem mirrors_initial (hd : d.WellFormed) :
    Mirrors t d ((ofTable t).saturate t d).initial d.minimize.initial :=
  ⟨(minimal_saturate hd).initial_lt, initial_minimize_lt hd, words_saturate hd⟩

/-- All states of the saturated automaton accept. -/
theorem isAccepting_saturate (hd : d.WellFormed) (hz : z < ((ofTable t).saturate t d).size) :
    ((ofTable t).saturate t d).isAccepting z = true := by
  have hminimal := minimal_saturate (t := t) hd
  obtain ⟨w, hw⟩ := hminimal.reached z hz
  rw [← hminimal.initial_eq] at hw
  have hnil : [] ∈ ((ofTable t).saturate t d).words := by
    rw [words_saturate hd]
    exact (mem_wordsFrom_looped hd (initial_minimize_lt hd)).2 ⟨_, rfl⟩
  -- some word goes on from here, and its beginning is accepted as well
  obtain ⟨v, hv⟩ := hminimal.live_of_mem hnil z hz
  have hmem : w ∈ ((ofTable t).saturate t d).words := by
    have happend : w ++ v ∈ ((ofTable t).saturate t d).words := by
      rw [Dfa.words_eq, Dfa.append_mem_wordsFrom]
      exact ⟨z, hw, hv⟩
    rw [words_saturate hd, Dfa.words_eq, Dfa.append_mem_wordsFrom] at happend
    obtain ⟨q, hq, -⟩ := happend
    rw [words_saturate hd]
    exact (mem_wordsFrom_looped hd (initial_minimize_lt hd)).2 ⟨q, hq⟩
  rw [Dfa.words_eq, Dfa.mem_wordsFrom] at hmem
  obtain ⟨z', hz', haccepting⟩ := hmem
  rw [hw] at hz'
  cases hz'
  exact haccepting

theorem exists_next_iff (hd : d.WellFormed) :
    (∃ z', ((ofTable t).saturate t d).next z s = some z') ↔
      [s] ∈ ((ofTable t).saturate t d).wordsFrom z := by
  rw [Dfa.mem_wordsFrom, Dfa.run_singleton]
  constructor
  · rintro ⟨z', hz'⟩
    exact ⟨z', hz', isAccepting_saturate hd ((minimal_saturate hd).next_lt hz')⟩
  · rintro ⟨z', hz', -⟩
    exact ⟨z', hz'⟩

theorem Mirrors.exists_next_iff (hd : d.WellFormed) (h : Mirrors t d z q) :
    (∃ z', ((ofTable t).saturate t d).next z s = some z') ↔
      ∃ q', (looped t d).next q s = some q' := by
  obtain ⟨-, hq, hwords⟩ := h
  rw [Alphabet.exists_next_iff hd, hwords, mem_wordsFrom_looped hd hq, Dfa.run_singleton]

theorem Mirrors.next (hd : d.WellFormed) (h : Mirrors t d z q)
    (hz' : ((ofTable t).saturate t d).next z s = some z')
    (hq' : (looped t d).next q s = some q') : Mirrors t d z' q' := by
  obtain ⟨hz, hq, hwords⟩ := h
  have hlt := (wellFormed_looped hd).next_lt hq'
  refine ⟨(minimal_saturate hd).next_lt hz', by rwa [size_looped] at hlt, ?_⟩
  ext w
  have hmem : s :: w ∈ ((ofTable t).saturate t d).wordsFrom z ↔
      s :: w ∈ (looped t d).wordsFrom q := by rw [hwords]
  rw [Dfa.cons_mem_wordsFrom, Dfa.cons_mem_wordsFrom, hz', hq'] at hmem
  simpa using hmem

theorem exists_mirrors (hd : d.WellFormed) (hz : z < ((ofTable t).saturate t d).size) :
    ∃ q, Mirrors t d z q := by
  have hminimal := minimal_saturate (t := t) hd
  obtain ⟨w, hw⟩ := hminimal.reached z hz
  rw [← hminimal.initial_eq] at hw
  have hinit := mirrors_initial (t := t) hd
  -- both automata take the word, step by step
  generalize ((ofTable t).saturate t d).initial = o at hw hinit
  generalize d.minimize.initial = q at hinit
  induction w generalizing o q with
  | nil =>
    cases hw
    exact ⟨q, hinit⟩
  | cons s w ih =>
    obtain ⟨o', ho', hw⟩ := Option.bind_eq_some_iff.1 hw
    obtain ⟨q', hq'⟩ := (hinit.exists_next_iff hd).1 ⟨o', ho'⟩
    exact ih o' hw q' (hinit.next hd ho' hq')

/-- What leads back in the looped automaton leads back in the saturated one. -/
theorem Mirrors.next_eq_self (hd : d.WellFormed) (h : Mirrors t d z q)
    (hz' : ((ofTable t).saturate t d).next z s = some z')
    (hq : (looped t d).next q s = some q) : z' = z := by
  have hnext := h.next hd hz' hq
  refine (minimal_saturate hd).distinct z' hnext.1 z h.1 ?_
  rw [hnext.2.2, h.2.2]

/-- A terminator leads back to its own state. -/
theorem next_terminator (hd : d.WellFormed) (hid : id ∈ t.ids)
    (hterminator : t.holds (·.isTerminator) id = true)
    (h : ((ofTable t).saturate t d).next z ((ofTable t).symbol id) = some z') : z' = z := by
  obtain ⟨q, hmirrors⟩ := exists_mirrors hd (Dfa.lt_size_of_next h)
  obtain ⟨q', hq'⟩ := (hmirrors.exists_next_iff hd).1 ⟨z', h⟩
  have hloop : q' = q := by
    rw [next_looped hd hmirrors.2.1 (lt_alphabet_of_next_saturate hd h)] at hq'
    exact loopTarget_terminator ((symbol_mem_terminators_iff hid).2 hterminator) hq'
  exact hmirrors.next_eq_self hd h (hloop ▸ hq')

end Looped

/-! ### Positions -/

section Tracks

variable {L : Language SymbolKind} {taken : List ActionId} {z z' : Nat}

variable (t d) in
/-- A state at which some actions have been taken. -/
def Tracks (taken : List ActionId) (z : Nat) : Prop :=
  ∃ q, d.minimize.run d.minimize.initial ((taken.map SymbolKind.action).map (ofTable t).code) =
    some q ∧ Mirrors t d z q

theorem tracks_initial (hd : d.WellFormed) : Tracks t d [] ((ofTable t).saturate t d).initial :=
  ⟨_, rfl, mirrors_initial hd⟩

variable (hd : (ofTable t).Represents d L) (hL : IsChain L)

include hd hL

omit hL in
theorem mem_ids_of_offers (h : id ∈ (Position.after taken).offers t L) : id ∈ t.ids := by
  rcases h with h | h
  · refine hd.mem_ids h ?_
    simp
  · exact ActionTable.mem_ids_of_holds h

/-- All transitions of a saturated automaton are on actions. -/
theorem exists_symbol_of_next_saturate (h : ((ofTable t).saturate t d).next z s = some z') :
    ∃ id ∈ t.ids, (ofTable t).symbol id = s := by
  obtain ⟨q, hmirrors⟩ := exists_mirrors hd.toWellFormed (Dfa.lt_size_of_next h)
  obtain ⟨q', hq'⟩ := (hmirrors.exists_next_iff hd.toWellFormed).1 ⟨z', h⟩
  have hs : s < d.alphabet := lt_alphabet_of_next_saturate hd.toWellFormed h
  rw [next_looped hd.toWellFormed hmirrors.2.1 hs] at hq'
  have hsome := isSome_loopTarget.1 (Option.isSome_of_eq_some hq')
  rcases hsome with hbase | hglobal
  · obtain ⟨o, ho⟩ := Option.isSome_iff_exists.1 hbase
    exact exists_symbol_of_next hd hL ho
  · obtain ⟨id, hid, rfl⟩ := List.mem_map.1 hglobal
    exact ⟨id, ActionTable.mem_ids_of_holds (ActionTable.mem_globals.1 hid), rfl⟩

omit hL in
/-- Every state takes the global actions. -/
theorem exists_next_global (hz : z < ((ofTable t).saturate t d).size)
    (hglobal : t.holds (·.isGlobal) id = true) :
    ∃ z', ((ofTable t).saturate t d).next z ((ofTable t).symbol id) = some z' := by
  have hid := ActionTable.mem_ids_of_holds hglobal
  obtain ⟨q, hmirrors⟩ := exists_mirrors (t := t) hd.toWellFormed hz
  rw [hmirrors.exists_next_iff hd.toWellFormed,
    next_looped hd.toWellFormed hmirrors.2.1 (hd.symbol_lt_alphabet hid),
    ← Option.isSome_iff_exists, isSome_loopTarget, symbol_mem_globals_iff hid]
  exact .inr hglobal

/-- An action that no chain takes leads back to its own state, if it leads anywhere. -/
theorem next_untaken (hid : id ∈ t.ids) (huntaken : ∀ u, u ++ [.action id] ∉ L)
    (h : ((ofTable t).saturate t d).next z ((ofTable t).symbol id) = some z') : z' = z := by
  have hwf := hd.toWellFormed
  obtain ⟨q, hmirrors⟩ := exists_mirrors hwf (Dfa.lt_size_of_next h)
  obtain ⟨q', hq'⟩ := (hmirrors.exists_next_iff hwf).1 ⟨z', h⟩
  have hnone : d.minimize.next q ((ofTable t).symbol id) = none := by
    rw [Option.eq_none_iff_forall_ne_some]
    intro o ho
    obtain ⟨u, id', hu, hid', hsymbol⟩ := exists_word_of_next hd hL ho
    have haction := action?_symbol (mem_actions.2 hid')
    rw [hsymbol, action?_symbol (mem_actions.2 hid)] at haction
    cases haction
    exact huntaken u hu
  -- whether it is a terminator or not, only a loop can be left
  have hloop : q' = q := by
    rw [next_looped hwf hmirrors.2.1 (lt_alphabet_of_next_saturate hwf h), hnone] at hq'
    by_cases hterminator : (ofTable t).symbol id ∈ t.terminators.map (ofTable t).symbol
    · exact loopTarget_terminator hterminator hq'
    · exact loopTarget_other hterminator hq'
  exact hmirrors.next_eq_self hwf h (hloop ▸ hq')

theorem next_minimize_iff {q : Nat} (hid : id ∈ t.ids)
    (hq : d.minimize.run d.minimize.initial ((taken.map SymbolKind.action).map (ofTable t).code) =
      some q) :
    (taken ++ [id]).map SymbolKind.action ∈ L ↔
      (d.minimize.next q ((ofTable t).symbol id)).isSome = true := by
  rw [mem_iff_exists_run hd hL, List.map_append, List.map_append, Dfa.run_append, hq,
    Option.bind_some, List.map_singleton, List.map_singleton, Dfa.run_singleton,
    code_action (mem_actions.2 hid), Option.isSome_iff_exists]

/-- A state takes the actions that are offered at its position. -/
theorem Tracks.offers_iff (h : Tracks t d taken z) (hid : id ∈ t.ids) :
    (∃ z', ((ofTable t).saturate t d).next z ((ofTable t).symbol id) = some z') ↔
      id ∈ (Position.after taken).offers t L := by
  obtain ⟨q, hq, hmirrors⟩ := h
  rw [hmirrors.exists_next_iff hd.toWellFormed,
    next_looped hd.toWellFormed hmirrors.2.1 (hd.symbol_lt_alphabet hid),
    ← Option.isSome_iff_exists, isSome_loopTarget, symbol_mem_globals_iff hid,
    ← next_minimize_iff hd hL hid hq]
  exact Iff.rfl

open Classical in
/-- An action that does not end the chain leads to a state of the next position. -/
theorem Tracks.next (h : Tracks t d taken z) (hid : id ∈ t.ids)
    (hterminator : t.holds (·.isTerminator) id = false)
    (hz' : ((ofTable t).saturate t d).next z ((ofTable t).symbol id) = some z') :
    Tracks t d (if (taken ++ [id]).map .action ∈ L then taken ++ [id] else taken) z' := by
  obtain ⟨q, hq, hmirrors⟩ := h
  have hs : (ofTable t).symbol id < d.alphabet := lt_alphabet_of_next_saturate hd.toWellFormed hz'
  obtain ⟨q', hq'⟩ := (hmirrors.exists_next_iff hd.toWellFormed).1 ⟨z', hz'⟩
  have hnext := hmirrors.next hd.toWellFormed hz' hq'
  rw [next_looped hd.toWellFormed hmirrors.2.1 hs] at hq'
  have hnot : (ofTable t).symbol id ∉ t.terminators.map (ofTable t).symbol := by
    rw [symbol_mem_terminators_iff hid, hterminator]
    decide
  have htarget := loopTarget_other hnot hq'
  by_cases hmem : (taken ++ [id]).map SymbolKind.action ∈ L
  · obtain ⟨o, ho⟩ := Option.isSome_iff_exists.1 ((next_minimize_iff hd hL hid hq).1 hmem)
    rw [ho, Option.getD_some] at htarget
    rw [if_pos hmem]
    refine ⟨q', ?_, hnext⟩
    rw [List.map_append, List.map_append, Dfa.run_append, hq, Option.bind_some, List.map_singleton,
      List.map_singleton, Dfa.run_singleton, code_action (mem_actions.2 hid), ho, htarget]
  · have hnone : d.minimize.next q ((ofTable t).symbol id) = none := by
      rw [← Option.not_isSome_iff_eq_none, ← next_minimize_iff hd hL hid hq]
      exact hmem
    rw [hnone, Option.getD_none] at htarget
    rw [if_neg hmem]
    exact ⟨q, hq, htarget ▸ hnext⟩

end Tracks

end Alphabet
end CallChain
