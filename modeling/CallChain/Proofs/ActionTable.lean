import CallChain.Action.Table
import CallChain.Proofs.Lists
import Mathlib.Data.List.Nodup

/-!
# Handles of a table

The handles of a table are the places of its declaration list; the canonical order lists each of
them once, and so do the overload groups taken together.

* `mem_ids`: handles lead to actions.
* `order_perm_ids`: the canonical order holds every handle once.
* `mem_members`: the overloads of a name.
* `flatMap_members_perm`: the overloads of all names hold every handle once.
-/

namespace CallChain

theorem ActionId.ext {a b : ActionId} (h : a.index = b.index) : a = b := by
  cases a
  cases b
  cases h
  rfl

namespace ActionTable

variable (t : ActionTable) {id : ActionId} {name : String}

/-! ### Handles -/

/-- A declared action is listed with its place. -/
theorem mem_declared {actions : List Action} {p : ActionId × Action} :
    p ∈ declared actions ↔ actions[p.1.index]? = some p.2 := by
  obtain ⟨⟨i⟩, action⟩ := p
  simp only [declared, List.mem_map, Prod.mk.injEq, Prod.exists, List.mem_zipIdx_iff_getElem?]
  constructor
  · rintro ⟨other, j, h, hj, rfl⟩
    cases hj
    exact h
  · intro h
    exact ⟨action, i, h, rfl, rfl⟩

/-- The places are all those of the declaration list. -/
theorem map_fst_declared (actions : List Action) :
    (declared actions).map (·.1) = (List.range actions.length).map ActionId.mk := by
  rw [declared, List.map_map, List.range_eq_range', ← List.zipIdx_map_snd 0 actions, List.map_map]
  rfl

theorem nodup_handles (k : Nat) : ((List.range k).map ActionId.mk).Nodup :=
  List.nodup_range.map fun _ _ h => ActionId.mk.inj h

theorem map_fst_declared_eq_ids : (declared t.actions).map (·.1) = t.ids := map_fst_declared _

theorem nodup_ids : t.ids.Nodup := nodup_handles _

variable {t}

/-- A handle is one of the table if there is an action behind it. -/
theorem mem_ids : id ∈ t.ids ↔ ∃ action, t.get? id = some action := by
  rw [ids, List.mem_map, get?]
  constructor
  · rintro ⟨i, hi, rfl⟩
    exact ⟨_, List.getElem?_eq_getElem (List.mem_range.1 hi)⟩
  · rintro ⟨action, h⟩
    exact ⟨id.index, List.mem_range.2 (List.getElem?_eq_some_iff.1 h).1, rfl⟩

variable (t) in
/-- The canonical order lists every handle once. -/
theorem order_perm_ids : t.order.Perm t.ids := by
  rw [t.order_eq, ← map_fst_declared_eq_ids]
  exact (sortBy_perm _ _).map _

theorem mem_order : id ∈ t.order ↔ id ∈ t.ids := t.order_perm_ids.mem_iff

theorem nodup_order : t.order.Nodup := t.order_perm_ids.nodup_iff.2 t.nodup_ids

/-- Every handle has a rank, its place in the canonical order. -/
theorem rank_eq (hid : id ∈ t.ids) : t.rank id = .ok (t.order.idxOf id) := by
  rw [rank, idxOf?_eq_some (mem_order.2 hid)]

/-- Comparing handles of the table refuses nothing. -/
theorem compared_eq {id' : ActionId} (hid : id ∈ t.ids) (hid' : id' ∈ t.ids) :
    t.compared id id' = .ok (t.compare id id') := by
  rw [compared, rank_eq hid, rank_eq hid']
  rfl

theorem holds_iff {flag : Action → Bool} :
    t.holds flag id = true ↔ ∃ action, t.get? id = some action ∧ flag action = true := by
  rw [holds, Option.any_eq_true]

theorem mem_ids_of_holds {flag : Action → Bool} (h : t.holds flag id = true) : id ∈ t.ids := by
  obtain ⟨action, hget, -⟩ := holds_iff.1 h
  exact mem_ids.2 ⟨action, hget⟩

/-- The canonical order leaves out no global action. -/
theorem mem_globals : id ∈ t.globals ↔ t.holds (·.isGlobal) id = true := by
  rw [globals, List.mem_filter]
  exact ⟨And.right, fun h => ⟨mem_order.2 (mem_ids_of_holds h), h⟩⟩

/-! ### Overloads -/

variable (t name) in
/-- The overloads of a name; a name that nothing declares has none. -/
def members : List ActionId := (t.byName? name).getD []

/-- A name is declared if some action has it. -/
theorem containsName_iff :
    t.containsName name = true ↔ ∃ id action, t.get? id = some action ∧ action.name = name := by
  simp only [containsName, List.any_eq_true, beq_iff_eq]
  constructor
  · rintro ⟨action, hmem, hname⟩
    obtain ⟨i, hi⟩ := List.mem_iff_getElem?.1 hmem
    exact ⟨⟨i⟩, action, hi, hname⟩
  · rintro ⟨id, action, hget, hname⟩
    exact ⟨action, List.mem_of_getElem? hget, hname⟩

/-- The overloads of a name are the handles of the actions with this name. -/
theorem mem_members : id ∈ t.members name ↔
    ∃ action, t.get? id = some action ∧ action.name = name := by
  unfold members byName?
  split
  next =>
    simp only [Option.getD_some, List.mem_map, List.mem_filter, mem_declared, beq_iff_eq,
      Prod.exists]
    constructor
    · rintro ⟨id, action, ⟨hget, hname⟩, rfl⟩
      exact ⟨action, hget, hname⟩
    · rintro ⟨action, hget, hname⟩
      exact ⟨id, action, ⟨hget, hname⟩, rfl⟩
  next hundeclared =>
    simp only [Option.getD_none, List.not_mem_nil, false_iff]
    rintro ⟨action, hget, hname⟩
    exact hundeclared (containsName_iff.2 ⟨id, action, hget, hname⟩)

/-- No overload is listed twice, as no handle is declared twice. -/
theorem nodup_members : (t.members name).Nodup := by
  unfold members byName?
  split
  · have hnodup := t.nodup_ids
    rw [← map_fst_declared_eq_ids] at hnodup
    exact (List.filter_sublist.map _).nodup hnodup
  · exact List.nodup_nil

theorem mem_names : name ∈ t.names ↔ t.containsName name = true := by
  simp [names, containsName, List.mem_eraseDups]

/-- An action has one name. -/
theorem eq_of_mem_members {name' : String} (h : id ∈ t.members name) (h' : id ∈ t.members name') :
    name = name' := by
  obtain ⟨action, hget, rfl⟩ := mem_members.1 h
  obtain ⟨action', hget', rfl⟩ := mem_members.1 h'
  rw [hget] at hget'
  cases hget'
  rfl

variable (t) in
/-- The overloads of the names are the handles, each once. -/
theorem flatMap_members_perm : (t.names.flatMap t.members).Perm t.ids := by
  -- overloads of different names are different, since an action has one name
  have hnodup : (t.names.flatMap t.members).Nodup := by
    refine List.nodup_flatMap.2 ⟨fun name _ => nodup_members, (nodup_eraseDups _).imp fun hne => ?_⟩
    exact fun id hid hid' => hne (eq_of_mem_members hid hid')
  refine (List.perm_ext_iff_of_nodup hnodup t.nodup_ids).2 fun id => ?_
  rw [List.mem_flatMap, mem_ids]
  constructor
  · rintro ⟨name, -, hid⟩
    obtain ⟨action, hget, -⟩ := mem_members.1 hid
    exact ⟨action, hget⟩
  · rintro ⟨action, hget⟩
    have hname : action.name ∈ t.names := mem_names.2 (containsName_iff.2 ⟨id, action, hget, rfl⟩)
    exact ⟨action.name, hname, mem_members.2 ⟨action, hget, rfl⟩⟩

end ActionTable
end CallChain
