import CallChain.Alphabet
import CallChain.Proofs.ActionTable
import Mathlib.Computability.Language

/-!
# The symbols of a compilation

The actions of an alphabet are the handles of its table, each once, and the range of a name holds
the symbols of its overloads. `Alphabet.code` gives every action and every anchor a number of its
own; actions of the table and anchors get their symbols, so that a language over actions and
anchors is told by the numbers (`mem_map_code`).

* `exists_range`: the range of a name.
* `exists_symbolTable`: the symbols by the index of their action.
* `code_injective`: no two kinds of symbols have one number.
-/

namespace CallChain

namespace Alphabet

variable {t : ActionTable} {a : Alphabet} {id : ActionId} {name : String} {s : Nat}

/-! ### How an alphabet is made -/

variable (t) in
/-- An alphabet lists the overloads of some names. -/
structure Lists (done : List String) (a : Alphabet) : Prop where
  actions_eq : a.actions = done.flatMap t.members
  names_eq : a.names.map (·.1) = done
  range_iff : ∀ p ∈ a.names, p.2.stop ≤ a.actionCount ∧
    ∀ s, (p.2.start ≤ s ∧ s < p.2.stop) ↔ ∃ id ∈ t.members p.1, a.action? s = some id

theorem actions_addName : (a.addName t name).actions = a.actions ++ t.members name := rfl

/-- The symbols of an earlier name stay what they are. -/
theorem Lists.action?_addName {done : List String} {other : String} (hother : other ∈ done)
    (hname : name ∉ done) (hid : id ∈ t.members other) :
    (a.addName t name).action? s = some id ↔ a.action? s = some id := by
  rw [action?, action?, actions_addName]
  rcases Nat.lt_or_ge s a.actions.length with hs | hs
  · rw [List.getElem?_append_left hs]
  · -- the new symbols stand for overloads of the new name only
    rw [List.getElem?_append_right hs, List.getElem?_eq_none hs]
    refine ⟨fun hsome => ?_, nofun⟩
    have hmem : id ∈ t.members name := List.mem_of_getElem? hsome
    exact absurd (ActionTable.eq_of_mem_members hmem hid ▸ hother) hname

/-- The new symbols are those of the new name. -/
theorem Lists.range_addName {done : List String} (h : Lists t done a) (hname : name ∉ done) :
    (a.actionCount ≤ s ∧ s < a.actionCount + (t.members name).length) ↔
      ∃ id ∈ t.members name, (a.addName t name).action? s = some id := by
  rw [action?, actions_addName]
  rcases Nat.lt_or_ge s a.actions.length with hs | hs
  · rw [List.getElem?_append_left hs]
    refine ⟨fun hle => absurd hs (Nat.not_lt.2 hle.1), ?_⟩
    -- an earlier symbol stands for an overload of an earlier name
    rintro ⟨id, hmem, hsome⟩
    have hid : id ∈ a.actions := List.mem_of_getElem? hsome
    rw [h.actions_eq, List.mem_flatMap] at hid
    obtain ⟨other, hother, hid⟩ := hid
    exact absurd (ActionTable.eq_of_mem_members hmem hid ▸ hother) hname
  · rw [List.getElem?_append_right hs]
    constructor
    · rintro ⟨-, hlt⟩
      have hlt' : s - a.actions.length < (t.members name).length :=
        Nat.sub_lt_left_of_lt_add hs hlt
      exact ⟨_, List.getElem_mem hlt', List.getElem?_eq_getElem hlt'⟩
    · rintro ⟨id, -, hsome⟩
      have hlt := (List.getElem?_eq_some_iff.1 hsome).1
      exact ⟨hs, (Nat.sub_lt_iff_lt_add' hs).1 hlt⟩

/-- A name that has not been listed yet can be added. -/
theorem Lists.addName {done : List String} (h : Lists t done a) (hname : name ∉ done) :
    Lists t (done ++ [name]) (addName t a name) where
  actions_eq := by
    rw [actions_addName, h.actions_eq, List.flatMap_append, List.flatMap_singleton]
  names_eq := by
    show (a.names ++ [_]).map _ = _
    rw [List.map_append, h.names_eq]
    rfl
  range_iff p hp := by
    have hcount : (a.addName t name).actionCount = a.actionCount + (t.members name).length := by
      rw [actionCount, actions_addName, List.length_append, actionCount]
    rcases List.mem_append.1 hp with hearlier | hnew
    · obtain ⟨hstop, hrange⟩ := h.range_iff p hearlier
      have hdone : p.1 ∈ done := h.names_eq ▸ List.mem_map_of_mem hearlier
      refine ⟨by omega, fun s => (hrange s).trans ?_⟩
      exact exists_congr fun id => and_congr_right fun hid =>
        (Lists.action?_addName hdone hname hid).symm
    · rw [List.mem_singleton.1 hnew]
      exact ⟨Nat.le_of_eq hcount.symm, fun s => h.range_addName hname⟩

/-- So can several names that are all new. -/
theorem Lists.foldl {done names : List String} (h : Lists t done a)
    (hnodup : (done ++ names).Nodup) :
    Lists t (done ++ names) (names.foldl (Alphabet.addName t) a) := by
  induction names generalizing done a with
  | nil => rwa [List.append_nil]
  | cons name names ih =>
    have hname : name ∉ done := by
      intro hmem
      exact (List.disjoint_of_nodup_append hnodup) hmem List.mem_cons_self
    rw [List.append_cons] at hnodup ⊢
    exact ih (h.addName hname) hnodup

variable (t) in
theorem lists_ofTable : Lists t t.names (ofTable t) := by
  have hempty : Lists t [] ⟨[], []⟩ := ⟨rfl, rfl, fun p hp => by cases hp⟩
  exact hempty.foldl (nodup_eraseDups _)

/-! ### Actions -/

variable (t) in
/-- The handles of a table are the actions of its alphabet. -/
theorem actions_perm_ids : (ofTable t).actions.Perm t.ids := by
  rw [(lists_ofTable t).actions_eq]
  exact t.flatMap_members_perm

theorem mem_actions : id ∈ (ofTable t).actions ↔ id ∈ t.ids := (actions_perm_ids t).mem_iff

variable (t) in
theorem nodup_actions : (ofTable t).actions.Nodup := (actions_perm_ids t).nodup_iff.2 t.nodup_ids

/-- The range of a name holds the symbols of its overloads. -/
theorem exists_range (hname : t.containsName name = true) :
    ∃ r, (ofTable t).range? name = some r ∧ r.stop ≤ (ofTable t).actionCount ∧
      ∀ s, r.contains s = true ↔
        ∃ id ∈ t.members name, (ofTable t).action? s = some id := by
  have h := lists_ofTable t
  have hmem : name ∈ (ofTable t).names.map (·.1) := by
    rw [h.names_eq]
    exact ActionTable.mem_names.2 hname
  cases hrange : (ofTable t).range? name with
  | none =>
    rw [range?, List.lookup_eq_none_iff] at hrange
    obtain ⟨p, hp, rfl⟩ := List.mem_map.1 hmem
    simpa using hrange p hp
  | some r =>
    obtain ⟨names, names', heq, -⟩ := List.lookup_eq_some_iff.1 hrange
    have hp : (name, r) ∈ (ofTable t).names := by
      rw [heq]
      exact List.mem_append_right _ List.mem_cons_self
    obtain ⟨hstop, hiff⟩ := h.range_iff _ hp
    refine ⟨r, rfl, hstop, fun s => ?_⟩
    rw [← hiff s]
    simp [SymbolRange.contains]

/-- A name without overloads has no range. -/
theorem range?_eq_none (hname : t.containsName name = false) : (ofTable t).range? name = none := by
  rw [range?, List.lookup_eq_none_iff]
  intro p hp
  have hmem : p.1 ∈ t.names := (lists_ofTable t).names_eq ▸ List.mem_map_of_mem hp
  rw [ActionTable.mem_names] at hmem
  rw [bne_iff_ne]
  rintro rfl
  rw [hname] at hmem
  cases hmem

/-! ### Anchors

The anchors have the symbols behind those of the actions. -/

theorem idxOf_anchor_lt (mark : Anchor) : Anchor.all.idxOf mark < Anchor.all.length := by
  cases mark <;> decide

theorem anchorSymbol_lt (a : Alphabet) (mark : Anchor) : a.anchorSymbol mark < a.size :=
  Nat.add_lt_add_left (idxOf_anchor_lt mark) _

theorem actionCount_le_anchorSymbol (a : Alphabet) (mark : Anchor) :
    a.actionCount ≤ a.anchorSymbol mark :=
  Nat.le_add_right _ _

theorem anchorSymbol_injective (a : Alphabet) {mark mark' : Anchor}
    (h : a.anchorSymbol mark = a.anchorSymbol mark') : mark = mark' := by
  have hidx : Anchor.all.idxOf mark = Anchor.all.idxOf mark' := Nat.add_left_cancel h
  revert hidx
  cases mark <;> cases mark' <;> decide

/-- There is no other symbol there. -/
theorem exists_anchorSymbol (a : Alphabet) (hs : a.actionCount ≤ s) (hs' : s < a.size) :
    ∃ mark, a.anchorSymbol mark = s := by
  have hlt : s - a.actionCount < 3 := by
    have : a.size = a.actionCount + 3 := rfl
    omega
  have hcases : s = a.actionCount ∨ s = a.actionCount + 1 ∨ s = a.actionCount + 2 := by omega
  rcases hcases with rfl | rfl | rfl
  · exact ⟨.start, rfl⟩
  · exact ⟨.stop, rfl⟩
  · exact ⟨.inner, rfl⟩

/-! ### What symbols stand for -/

theorem symbol_lt (h : id ∈ a.actions) : a.symbol id < a.actionCount := List.idxOf_lt_length_iff.2 h

theorem action?_symbol (h : id ∈ a.actions) : a.action? (a.symbol id) = some id :=
  List.getElem?_idxOf h

/-- Every symbol of the alphabet is classified: it is an action's or an anchor's. -/
theorem classify_anchorSymbol (a : Alphabet) (mark : Anchor) :
    a.classify (a.anchorSymbol mark) = .ok (.anchor mark) := by
  have hnone : a.action? (a.anchorSymbol mark) = none :=
    List.getElem?_eq_none (actionCount_le_anchorSymbol a mark)
  have hfind : Anchor.all.find? (a.anchorSymbol · = a.anchorSymbol mark) = some mark := by
    cases mark <;> simp [Anchor.all, anchorSymbol]
  rw [classify, hnone]
  dsimp only
  rw [hfind]

theorem classify_action (h : a.action? s = some id) : a.classify s = .ok (.action id) := by
  rw [classify, h]

/-- The symbols behind those of the actions are those of the anchors. -/
theorem isAnchor_eq (hs : s < a.size) : a.isAnchor s = .ok (decide (a.actionCount ≤ s)) := by
  rcases Nat.lt_or_ge s a.actionCount with hlt | hge
  · have haction : a.action? s = some a.actions[s] := List.getElem?_eq_getElem hlt
    rw [isAnchor, classify_action haction, decide_eq_false (Nat.not_le.2 hlt)]
    rfl
  · obtain ⟨mark, rfl⟩ := exists_anchorSymbol a hge hs
    rw [isAnchor, classify_anchorSymbol, decide_eq_true hge]
    rfl

/-! ### Symbols by index -/

/-- Places that are not written keep what they hold. -/
theorem getElem?_writeSymbols_of_not_mem {ps : List (ActionId × Nat)} {table : Array Nat}
    (h : id ∉ ps.map (·.1)) :
    (ps.foldl (fun table p => table.setIfInBounds p.1.index p.2) table)[id.index]? =
      table[id.index]? := by
  induction ps generalizing table with
  | nil => rfl
  | cons p ps ih =>
    rw [List.map_cons, List.mem_cons, not_or] at h
    have hne : p.1.index ≠ id.index := fun heq => h.1 (ActionId.ext heq).symm
    rw [List.foldl_cons, ih h.2, Array.getElem?_setIfInBounds_ne hne]

/-- What has been written to a place stays there, as every place is written once. -/
theorem getElem?_writeSymbols {ps : List (ActionId × Nat)} {table : Array Nat}
    (hnodup : (ps.map (·.1)).Nodup) (hp : (id, s) ∈ ps) (hid : id.index < table.size) :
    (ps.foldl (fun table p => table.setIfInBounds p.1.index p.2) table)[id.index]? = some s := by
  induction ps generalizing table with
  | nil => cases hp
  | cons p ps ih =>
    rw [List.map_cons, List.nodup_cons] at hnodup
    rw [List.foldl_cons]
    rcases List.mem_cons.1 hp with rfl | hp
    · rw [getElem?_writeSymbols_of_not_mem hnodup.1, Array.getElem?_setIfInBounds_self_of_lt hid]
    · refine ih hnodup.2 hp ?_
      rw [Array.size_setIfInBounds]
      exact hid

theorem index_lt_size (h : id ∈ t.ids) : id.index < t.size := by
  obtain ⟨i, hi, rfl⟩ := List.mem_map.1 h
  exact List.mem_range.1 hi

variable (t) in
/-- The table by index has room for all actions, and the symbol of an action stands at its index. -/
theorem exists_symbolTable : ∃ table, (ofTable t).symbolTable t.size = .ok table ∧
    ∀ id ∈ t.ids, table[id.index]? = some ((ofTable t).symbol id) := by
  have hwrite (table : Array Nat) (p : ActionId × Nat) (hp : p ∈ (ofTable t).actions.zipIdx)
      (hsize : table.size = t.size) : writeSymbol table p =
        .ok (table.setIfInBounds p.1.index p.2) ∧
      (table.setIfInBounds p.1.index p.2).size = t.size := by
    have hid : p.1 ∈ t.ids := by
      rw [← mem_actions, ← List.zipIdx_map_fst 0 (ofTable t).actions]
      exact List.mem_map_of_mem hp
    refine ⟨writeAt_eq (hsize ▸ index_lt_size hid), ?_⟩
    rw [Array.size_setIfInBounds, hsize]
  obtain ⟨htable, -⟩ := foldlM_eq_ok hwrite (s := .replicate t.size 0) Array.size_replicate
  refine ⟨_, htable, fun id hid => getElem?_writeSymbols ?_ ?_ ?_⟩
  · rw [List.zipIdx_map_fst]
    exact nodup_actions t
  · exact List.mem_zipIdx_iff_getElem?.2 (action?_symbol (mem_actions.2 hid))
  · rw [Array.size_replicate]
    exact index_lt_size hid

/-! ### Codes -/

/-- A number for every action and anchor: the symbol, unless the action has none. -/
def code (a : Alphabet) : SymbolKind → Nat
  | .action id => if id ∈ a.actions then a.symbol id else a.size + id.index
  | .anchor mark => a.anchorSymbol mark

@[simp] theorem code_anchor (mark : Anchor) : a.code (.anchor mark) = a.anchorSymbol mark := rfl

theorem code_action (h : id ∈ a.actions) : a.code (.action id) = a.symbol id := if_pos h

theorem symbol_of_action? (hnodup : a.actions.Nodup) (h : a.action? s = some id) :
    a.symbol id = s := by
  obtain ⟨hs, heq⟩ := List.getElem?_eq_some_iff.1 h
  rw [symbol, ← heq]
  exact hnodup.idxOf_getElem s hs

/-- The numbers of actions without a symbol lie behind the alphabet. -/
theorem size_le_code (h : id ∉ a.actions) : a.size ≤ a.code (.action id) := by
  rw [code, if_neg h]
  exact Nat.le_add_right _ _

theorem actionCount_lt_size (a : Alphabet) : a.actionCount < a.size :=
  Nat.lt_add_of_pos_right (by decide)

/-- An action is in the alphabet if its number is that of a symbol of actions. -/
theorem code_action_lt_iff : a.code (.action id) < a.actionCount ↔ id ∈ a.actions := by
  constructor
  · intro h
    by_contra hid
    have := size_le_code hid
    have := actionCount_lt_size a
    omega
  · intro h
    rw [code_action h]
    exact symbol_lt h

/-- No two actions or anchors have one number. -/
theorem code_injective (a : Alphabet) : Function.Injective a.code := by
  -- an action has a symbol of the actions or a number behind the alphabet; anchors lie between
  have hmixed {id : ActionId} {mark : Anchor} (h : a.code (.action id) = a.anchorSymbol mark) :
      False := by
    have hlt := anchorSymbol_lt a mark
    have hle := actionCount_le_anchorSymbol a mark
    by_cases hid : id ∈ a.actions
    · rw [code_action hid] at h
      have := symbol_lt hid
      omega
    · have := size_le_code hid
      omega
  intro k k' h
  match k, k' with
  | .anchor mark, .anchor mark' => exact congrArg _ (anchorSymbol_injective a h)
  | .action id, .anchor mark => exact (hmixed h).elim
  | .anchor mark, .action id => exact (hmixed h.symm).elim
  | .action id, .action id' =>
    have hsame : id ∈ a.actions ↔ id' ∈ a.actions := by
      rw [← code_action_lt_iff, ← code_action_lt_iff, h]
    by_cases hid : id ∈ a.actions
    · have hid' := hsame.1 hid
      rw [code_action hid, code_action hid'] at h
      have haction := action?_symbol hid
      rw [h, action?_symbol hid'] at haction
      cases haction
      rfl
    · have hid' : id' ∉ a.actions := mt hsame.2 hid
      rw [code, if_neg hid, code, if_neg hid'] at h
      exact congrArg _ (ActionId.ext (Nat.add_left_cancel h))

/-- Actions and anchors have the symbols of the alphabet. -/
theorem exists_code_eq (hs : s < (ofTable t).size) : ∃ k, (ofTable t).code k = s := by
  rcases Nat.lt_or_ge s (ofTable t).actionCount with hlt | hge
  · refine ⟨.action (ofTable t).actions[s], ?_⟩
    rw [code_action (List.getElem_mem hlt)]
    exact symbol_of_action? (nodup_actions t) (List.getElem?_eq_getElem hlt)
  · obtain ⟨mark, rfl⟩ := exists_anchorSymbol _ hge hs
    exact ⟨.anchor mark, rfl⟩

end Alphabet

/-! ### Coded words -/

theorem mem_map_iff {α β : Type} {f : α → β} {L : Language α} {w : List β} :
    w ∈ L.map f ↔ ∃ v ∈ L, v.map f = w :=
  Iff.rfl

/-- A code that tells letters apart tells words apart. -/
theorem map_mem_map_iff {α β : Type} {f : α → β} (hf : Function.Injective f) {L : Language α}
    {v : List α} : v.map f ∈ Language.map f L ↔ v ∈ L := by
  rw [mem_map_iff]
  constructor
  · rintro ⟨u, hu, heq⟩
    rwa [← List.map_injective_iff.2 hf heq]
  · exact fun hv => ⟨v, hv, rfl⟩

end CallChain
