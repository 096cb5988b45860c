import CallChain.Proofs.Alphabet
import CallChain.Proofs.Tiling
import Mathlib.Data.List.Pairwise
import Mathlib.Data.Set.Function

/-!
# The layout of an alphabet

An alphabet gives the actions of its table the first symbols, name by name, and the anchors the
three symbols behind them. Overloads can be declared far apart, so the symbol of an action is not
its index.

* `tiles_ofTable`: the ranges of the names follow one another.
* `classify_eq_ok_iff`: what a symbol stands for.
* `isLaidOut_ofTable`: these together.
-/

namespace CallChain

namespace Alphabet

variable {t : ActionTable} {a : Alphabet} {id : ActionId} {name : String} {s : Nat}

/-! ### Actions -/

variable (t) in
theorem actionCount_ofTable : (ofTable t).actionCount = t.size := by
  rw [actionCount, (actions_perm_ids t).length_eq, ActionTable.ids, List.length_map,
    List.length_range]

theorem action?_eq_some_iff :
    (ofTable t).action? s = some id ↔ id ∈ t.ids ∧ (ofTable t).symbol id = s := by
  constructor
  · intro h
    exact ⟨mem_actions.1 (List.mem_of_getElem? h), symbol_of_action? (nodup_actions t) h⟩
  · rintro ⟨hid, rfl⟩
    exact action?_symbol (mem_actions.2 hid)

variable (t) in
/-- Every handle has a symbol of its own below the number of actions, and all of these are used. -/
theorem bijOn_symbol : Set.BijOn (ofTable t).symbol {id | id ∈ t.ids} {s | s < t.size} := by
  refine ⟨fun id hid => ?_, fun id hid id' hid' heq => ?_, fun s hs => ?_⟩
  · show (ofTable t).symbol id < t.size
    rw [← actionCount_ofTable t]
    exact symbol_lt (mem_actions.2 hid)
  · have hfound := action?_eq_some_iff.2 ⟨hid, rfl⟩
    rw [heq, action?_eq_some_iff.2 ⟨hid', rfl⟩] at hfound
    exact (Option.some.inj hfound).symm
  · have hs : s < (ofTable t).actionCount := by
      rw [actionCount_ofTable t]
      exact hs
    have hfound : (ofTable t).action? s = some (ofTable t).actions[s] := List.getElem?_eq_getElem hs
    exact ⟨_, action?_eq_some_iff.1 hfound⟩

/-! ### Ranges -/

/-- The ranges of the names, in the order of the names. -/
def ranges (a : Alphabet) : List (Nat × Nat) := a.names.map fun (_, r) => (r.start, r.stop)

/-- The range of a name begins where the symbols so far end. -/
theorem tiles_addName (h : Tiles 0 a.ranges a.actionCount) (hname : t.members name ≠ []) :
    Tiles 0 (a.addName t name).ranges (a.addName t name).actionCount := by
  have hranges : (a.addName t name).ranges =
      a.ranges ++ [(a.actionCount, a.actionCount + (t.members name).length)] := List.map_append
  have hcount : (a.addName t name).actionCount = a.actionCount + (t.members name).length :=
    List.length_append
  have hpos := List.length_pos_iff.2 hname
  rw [hranges, hcount]
  exact h.append (.cons (Nat.lt_add_of_pos_right hpos) .nil)

variable (t) in
/-- The ranges of the names follow one another, and none is empty. -/
theorem tiles_ofTable : Tiles 0 (ofTable t).ranges t.size := by
  rw [← actionCount_ofTable t]
  refine List.foldlRecOn t.names (addName t) (b := ⟨[], []⟩)
    (motive := fun a => Tiles 0 a.ranges a.actionCount) .nil fun a h name hname => ?_
  obtain ⟨id, x, hid⟩ := ActionTable.containsName_iff.1 (ActionTable.mem_names.1 hname)
  exact tiles_addName h (List.ne_nil_of_mem (ActionTable.mem_members.2 ⟨x, hid⟩))

variable (t) in
theorem nodup_names_ofTable : ((ofTable t).names.map (·.1)).Nodup := by
  rw [(lists_ofTable t).names_eq]
  exact nodup_eraseDups _

theorem range?_eq_some_iff {r : SymbolRange} :
    (ofTable t).range? name = some r ↔ (name, r) ∈ (ofTable t).names :=
  lookup_eq_some_iff_mem (nodup_names_ofTable t)

theorem mem_ranges {r : SymbolRange} (h : (ofTable t).range? name = some r) :
    (r.start, r.stop) ∈ (ofTable t).ranges :=
  List.mem_map_of_mem (range?_eq_some_iff.1 h)

theorem range?_eq_none_iff :
    (ofTable t).range? name = none ↔ ∀ id x, t.get? id = some x → x.name ≠ name := by
  constructor
  · intro hnone id x hx hname
    obtain ⟨r, hr, -⟩ := exists_range (ActionTable.containsName_iff.2 ⟨id, x, hx, hname⟩)
    rw [hnone] at hr
    cases hr
  · intro h
    apply range?_eq_none
    cases hcontains : t.containsName name with
    | false => rfl
    | true =>
      obtain ⟨id, x, hx, hname⟩ := ActionTable.containsName_iff.1 hcontains
      exact absurd hname (h id x hx)

/-- The range of a name holds the symbols of the actions of that name. -/
theorem contains_range_iff {r : SymbolRange} (h : (ofTable t).range? name = some r) :
    r.contains s = true ↔
      ∃ id x, t.get? id = some x ∧ x.name = name ∧ (ofTable t).symbol id = s := by
  have hname : t.containsName name = true := by
    by_contra hnot
    rw [range?_eq_none (Bool.eq_false_iff.2 hnot)] at h
    cases h
  obtain ⟨r', hr', -, hiff⟩ := exists_range hname
  rw [h, Option.some.injEq] at hr'
  subst hr'
  rw [hiff s]
  refine exists_congr fun id => ?_
  rw [ActionTable.mem_members, action?_eq_some_iff, ActionTable.mem_ids]
  constructor
  · rintro ⟨⟨x, hx, hxname⟩, -, hsymbol⟩
    exact ⟨x, hx, hxname, hsymbol⟩
  · rintro ⟨x, hx, hxname, hsymbol⟩
    exact ⟨⟨x, hx, hxname⟩, ⟨x, hx⟩, hsymbol⟩

/-- The ranges of two names do not meet. -/
theorem disjoint_ranges {name' : String} {r r' : SymbolRange}
    (hr : (ofTable t).range? name = some r) (hr' : (ofTable t).range? name' = some r')
    (hne : name ≠ name') : r.stop ≤ r'.start ∨ r'.stop ≤ r.start := by
  have hsymm : Std.Symm fun p q : String × SymbolRange =>
      p.2.stop ≤ q.2.start ∨ q.2.stop ≤ p.2.start := ⟨fun _ _ => Or.symm⟩
  have hpairwise : (ofTable t).names.Pairwise fun p q =>
      p.2.stop ≤ q.2.start ∨ q.2.stop ≤ p.2.start :=
    (List.pairwise_map.1 (tiles_ofTable t).pairwise).imp .inl
  exact hpairwise.forall (range?_eq_some_iff.1 hr) (range?_eq_some_iff.1 hr')
    fun heq => hne (congrArg Prod.fst heq)

/-- Every action has its symbol in the range of a name. -/
theorem exists_range_contains (hs : s < t.size) :
    ∃ name r, (ofTable t).range? name = some r ∧ r.contains s = true := by
  obtain ⟨p, hp, hstart, hstop⟩ := (tiles_ofTable t).exists_mem (Nat.zero_le s) hs
  obtain ⟨⟨name, r⟩, hmem, rfl⟩ := List.mem_map.1 hp
  refine ⟨name, r, range?_eq_some_iff.2 hmem, ?_⟩
  simp [SymbolRange.contains, hstart, hstop]

/-! ### What symbols stand for -/

theorem classify_of_size_le (h : a.size ≤ s) : a.classify s = .error .symbolOutsideAlphabet := by
  have hnone : a.action? s = none := by
    apply List.getElem?_eq_none
    exact Nat.le_trans (Nat.le_of_lt (actionCount_lt_size a)) h
  have hfind : Anchor.all.find? (a.anchorSymbol · = s) = none := by
    rw [List.find?_eq_none]
    intro mark _
    have := anchorSymbol_lt a mark
    simp only [decide_eq_true_eq]
    omega
  rw [classify, hnone]
  dsimp only
  rw [hfind]

/-- The symbol of an action of the table, or of an anchor. -/
def IsSymbolOf (t : ActionTable) (a : Alphabet) (s : Nat) : SymbolKind → Prop
  | .action id => id ∈ t.ids ∧ a.symbol id = s
  | .anchor mark => a.anchorSymbol mark = s

theorem exists_isSymbolOf (hs : s < (ofTable t).size) : ∃ k, (ofTable t).IsSymbolOf t s k := by
  rcases Nat.lt_or_ge s (ofTable t).actionCount with hlt | hge
  · rw [actionCount_ofTable t] at hlt
    obtain ⟨id, hid, heq⟩ := (bijOn_symbol t).surjOn hlt
    exact ⟨.action id, hid, heq⟩
  · obtain ⟨mark, heq⟩ := exists_anchorSymbol _ hge hs
    exact ⟨.anchor mark, heq⟩

theorem classify_of_isSymbolOf {k : SymbolKind} (h : (ofTable t).IsSymbolOf t s k) :
    (ofTable t).classify s = .ok k := by
  cases k with
  | action id => exact classify_action (action?_eq_some_iff.2 h)
  | anchor mark =>
    obtain rfl : _ = s := h
    exact classify_anchorSymbol _ mark

theorem exists_classify_iff : (∃ k, (ofTable t).classify s = .ok k) ↔ s < (ofTable t).size := by
  constructor
  · rintro ⟨k, hk⟩
    by_contra hge
    rw [classify_of_size_le (Nat.le_of_not_lt hge)] at hk
    cases hk
  · intro hs
    obtain ⟨k, hk⟩ := exists_isSymbolOf hs
    exact ⟨k, classify_of_isSymbolOf hk⟩

theorem classify_eq_ok_iff {k : SymbolKind} :
    (ofTable t).classify s = .ok k ↔ (ofTable t).IsSymbolOf t s k := by
  refine ⟨fun h => ?_, classify_of_isSymbolOf⟩
  obtain ⟨k', hk'⟩ := exists_isSymbolOf (exists_classify_iff.1 ⟨k, h⟩)
  rw [classify_of_isSymbolOf hk', Except.ok.injEq] at h
  exact h ▸ hk'

/-! ### The layout -/

/-- The alphabet of a table: handles and the first symbols correspond, both ways and in the table by
index; the ranges of the names, in their order, cut these symbols into pieces, and each holds the
symbols of the actions of its name; the anchors follow, and there is nothing else. -/
structure IsLaidOut (t : ActionTable) (a : Alphabet) : Prop where
  actionCount_eq : a.actionCount = t.size
  size_eq : a.size = t.size + 3
  bijOn : Set.BijOn a.symbol {id | id ∈ t.ids} {s | s < t.size}
  inverse : ∀ s id, a.action? s = some id ↔ id ∈ t.ids ∧ a.symbol id = s
  byIndex : ∃ table, a.symbolTable t.size = .ok table ∧
    ∀ id ∈ t.ids, table[id.index]? = some (a.symbol id)
  names_eq : a.names.map (·.1) = t.names
  tiles : Tiles 0 a.ranges t.size
  noRange : ∀ name, a.range? name = none ↔ ∀ id x, t.get? id = some x → x.name ≠ name
  nonempty : ∀ name r, a.range? name = some r → r.start < r.stop ∧ r.stop ≤ t.size
  members : ∀ name r, a.range? name = some r → ∀ s, r.contains s = true ↔
    ∃ id x, t.get? id = some x ∧ x.name = name ∧ a.symbol id = s
  disjoint : ∀ name name' r r', a.range? name = some r → a.range? name' = some r' →
    name ≠ name' → r.stop ≤ r'.start ∨ r'.stop ≤ r.start
  covers : ∀ s, s < t.size → ∃ name r, a.range? name = some r ∧ r.contains s = true
  anchors : a.anchorSymbol .start = t.size ∧ a.anchorSymbol .stop = t.size + 1 ∧
    a.anchorSymbol .inner = t.size + 2
  classified : ∀ s k, a.classify s = .ok k ↔ a.IsSymbolOf t s k
  total : ∀ s, (∃ k, a.classify s = .ok k) ↔ s < t.size + 3

theorem isLaidOut_ofTable (t : ActionTable) : (ofTable t).IsLaidOut t where
  actionCount_eq := actionCount_ofTable t
  size_eq := congrArg (· + 3) (actionCount_ofTable t)
  bijOn := bijOn_symbol t
  inverse _ _ := action?_eq_some_iff
  byIndex := exists_symbolTable t
  names_eq := (lists_ofTable t).names_eq
  tiles := tiles_ofTable t
  noRange _ := range?_eq_none_iff
  nonempty _ _ hr := ((tiles_ofTable t).bounds_of_mem (mem_ranges hr)).2
  members _ _ hr _ := contains_range_iff hr
  disjoint _ _ _ _ := disjoint_ranges
  covers _ := exists_range_contains
  anchors := by
    rw [← actionCount_ofTable t]
    exact ⟨rfl, rfl, rfl⟩
  classified _ _ := classify_eq_ok_iff
  total s := by
    rw [exists_classify_iff, ← actionCount_ofTable t]
    exact Iff.rfl

/-- Overloads of `add` with another action between them. -/
def interleaved : ActionTable :=
  ⟨[⟨"add", "add", ["int"], "void", false, false, true⟩, .ofName "days",
      ⟨"add", "add", ["int", "int"], "void", false, false, true⟩, .ofName "to"],
    [⟨0⟩, ⟨2⟩, ⟨1⟩, ⟨3⟩], by decide, by decide⟩

theorem isLaidOut_interleaved :
    (ofTable interleaved).symbolTable 4 = .ok #[0, 2, 1, 3] ∧
    (ofTable interleaved).range? "add" = some ⟨0, 2⟩ ∧
    (∃ id x, interleaved.get? id = some x ∧ x.name = "add" ∧
      (ofTable interleaved).symbol id = 1) ∧
    (ofTable interleaved).classify 5 = .ok (.anchor .stop) ∧
    ¬ ∃ k, (ofTable interleaved).classify 7 = .ok k := by
  have h := isLaidOut_ofTable interleaved
  have hadd : (ofTable interleaved).range? "add" = some ⟨0, 2⟩ := by decide
  have hstop : (ofTable interleaved).anchorSymbol .stop = 5 := by decide
  refine ⟨by decide, hadd, (h.members "add" ⟨0, 2⟩ hadd 1).1 (by decide), ?_, ?_⟩
  · exact (h.classified 5 (.anchor .stop)).2 hstop
  · rw [h.total 7]
    decide

end Alphabet
end CallChain
