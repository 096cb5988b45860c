import CallChain.Proofs.Renaming.Tables
import Mathlib.Data.List.Pairwise
import Mathlib.Data.String.Basic

/-!
# The canonical order of declared actions

The canonical comparison is the lexicographic one of name, operation, parameters and return type
(`Action.Precedes`). A table is strictly increasing in it. A list without a table is sorted up to
the first two neighbours that are alike, so these have the least key that several actions have, and
since sorting is stable they are the first two that have it.

* `compareKey_eq_lt_iff`: what the comparison decides by.
* `names_of_firstClash`: which actions a clash names.
* `isOrdered`: the canonical order and the overload groups of a table.
* `ofActions?_exact`: which lists have a table, and what their tables are.
-/

namespace CallChain

/-- Distinct elements stand in the order of their first occurrences. -/
theorem pairwise_eraseDups {α : Type} [BEq α] [LawfulBEq α] : ∀ xs : List α,
    xs.eraseDups.Pairwise fun x y => ∃ front rest, xs = front ++ x :: rest ∧ y ∉ front
  | [] => List.Pairwise.nil
  | z :: xs => by
    have hlt : (xs.filter fun y => !y == z).length < xs.length + 1 :=
      Nat.lt_succ_of_le (List.length_filter_le _ _)
    rw [List.eraseDups_cons, List.pairwise_cons]
    refine ⟨fun y _ => ⟨[], xs, rfl, List.not_mem_nil⟩, ?_⟩
    refine (pairwise_eraseDups _).imp_of_mem fun {x y} _ hy h => ?_
    obtain ⟨front, rest, heq, hfront⟩ := h
    have hyz : y ≠ z := by
      rw [List.mem_eraseDups, List.mem_filter] at hy
      simpa using hy.2
    -- the first occurrence of x among the others is its first one behind z
    obtain ⟨before, behind, rfl, hbefore, hbehind⟩ := List.filter_eq_append_iff.1 heq
    obtain ⟨between, last, rfl, hbetween, -, -⟩ := List.filter_eq_cons_iff.1 hbehind
    refine ⟨z :: (before ++ between), last, by simp, ?_⟩
    rw [List.mem_cons, List.mem_append]
    rintro (h | h | h)
    · exact hyz h
    · exact hfront (hbefore ▸ List.mem_filter.2 ⟨h, by simpa using hyz⟩)
    · exact hbetween y h (by simpa using hyz)
termination_by xs => xs.length

/-! ### Keys -/

namespace Action

variable {a b : Action}

/-- The first difference decides: of the names, the operations, the parameters (element by element,
then by length) or the return types. -/
def Precedes (a b : Action) : Prop :=
  a.name < b.name ∨ a.name = b.name ∧
    (a.operation < b.operation ∨ a.operation = b.operation ∧
      (a.params < b.params ∨ a.params = b.params ∧ a.returns < b.returns))

/-- There is no difference. -/
def Alike (a b : Action) : Prop :=
  a.name = b.name ∧ a.operation = b.operation ∧ a.params = b.params ∧ a.returns = b.returns

theorem compare_texts_eq_lt_iff {ss ts : List String} : compare ss ts = .lt ↔ ss < ts := by
  show List.compareLex compare ss ts = .lt ↔ _
  induction ss generalizing ts with
  | nil => cases ts <;> simp [List.compareLex]
  | cons s ss ih =>
    cases ts with
    | nil => simp [List.compareLex]
    | cons t ts =>
      rw [List.compareLex_cons_cons, Ordering.then_eq_lt, List.cons_lt_cons_iff, ← ih,
        compare_lt_iff_lt, Std.compare_eq_iff_eq]

theorem compareKey_eq_lt_iff : a.compareKey b = .lt ↔ a.Precedes b := by
  simp only [compareKey, Ordering.then_eq_lt, compare_lt_iff_lt, compare_texts_eq_lt_iff,
    Std.compare_eq_iff_eq, Precedes]

theorem compareKey_eq_gt_iff : a.compareKey b = .gt ↔ b.Precedes a := by
  rw [← compareKey_eq_lt_iff]
  exact Std.OrientedCmp.gt_iff_lt

end Action

/-! ### Clashes -/

/-- A clash names the first two of the actions that are like one of them, and no two actions that
are alike precede these. -/
structure DuplicateAction.Names (clash : DuplicateAction) (actions : List Action) (x : Action) :
    Prop where
  key_eq : clash.key = x.identityKey
  first_eq : actions[clash.first.index]? = some x
  second_alike : ∃ y, actions[clash.second.index]? = some y ∧ x.Alike y
  first_lt_second : clash.first.index < clash.second.index
  lowest : ∀ (i : Nat) (y : Action), actions[i]? = some y → x.Alike y →
    i = clash.first.index ∨ clash.second.index ≤ i
  least : ∀ (i j : Nat) (y z : Action), i < j → actions[i]? = some y → actions[j]? = some z →
    y.Alike z → ¬ y.Precedes x

theorem firstClash_cons_eq_none {p q : ActionId × Action} {ps : List (ActionId × Action)}
    (hne : p.2.compareKey q.2 ≠ .eq) (h : firstClash (q :: ps) = none) :
    firstClash (p :: q :: ps) = none := by
  rw [firstClash, if_neg hne, h]

/-- In front of a clash there is none. -/
theorem exists_of_firstClash {ps : List (ActionId × Action)} {clash : DuplicateAction}
    (h : firstClash ps = some clash) : ∃ front p q rest, ps = front ++ p :: q :: rest ∧
      p.2.compareKey q.2 = .eq ∧ clash = ⟨p.2.identityKey, p.1, q.1⟩ ∧
      firstClash (front ++ [p]) = none := by
  induction ps with
  | nil => cases h
  | cons p ps ih =>
    cases ps with
    | nil => cases h
    | cons q ps =>
      rw [firstClash] at h
      split at h
      next heq => exact ⟨[], p, q, ps, rfl, heq, (Option.some.inj h).symm, rfl⟩
      next hne =>
        obtain ⟨front, p', q', rest, heq, halike, hclash, hnone⟩ := ih h
        refine ⟨p :: front, p', q', rest, congrArg (p :: ·) heq, halike, hclash, ?_⟩
        cases front with
        | nil =>
          cases heq
          exact firstClash_cons_eq_none hne rfl
        | cons r front =>
          cases heq
          exact firstClash_cons_eq_none hne hnone

theorem nodup_inCanonicalOrder (actions : List Action) :
    ((inCanonicalOrder actions).map (·.1)).Nodup := by
  have hperm : ((inCanonicalOrder actions).map (·.1)).Perm ((declared actions).map (·.1)) :=
    (sortBy_perm _ _).map _
  rw [ActionTable.map_fst_declared] at hperm
  exact hperm.nodup_iff.2 (ActionTable.nodup_handles _)

theorem mem_inCanonicalOrder {actions : List Action} {p : ActionId × Action} :
    p ∈ inCanonicalOrder actions ↔ actions[p.1.index]? = some p.2 :=
  (mem_sortBy _).trans ActionTable.mem_declared

/-- What is sorted strictly holds no two actions that are alike. -/
theorem eq_of_alike {ps : List (ActionId × Action)} {p q : ActionId × Action}
    (hstrict : ps.Pairwise fun p q => p.2.compareKey q.2 = .lt) (hp : p ∈ ps) (hq : q ∈ ps)
    (halike : p.2.Alike q.2) : p = q := by
  have hdiffer : ps.Pairwise fun p q => p.2.compareKey q.2 ≠ .eq :=
    hstrict.imp fun h => by rw [h]; decide
  have hsymm : Std.Symm fun p q : ActionId × Action => p.2.compareKey q.2 ≠ .eq :=
    ⟨fun _ _ => compareKey_ne_symm⟩
  by_contra hne
  exact hdiffer.forall hp hq hne (Action.compareKey_eq_iff.2 halike)

section Clash

variable {front rest : List (ActionId × Action)} {p q e : ActionId × Action}
  (hstable : (front ++ p :: q :: rest).Pairwise fun p q =>
    p.2.compareKey q.2 = .lt ∨ p.2.compareKey q.2 = .eq ∧ p.1.index ≤ q.1.index)
  (hpq : p.2.compareKey q.2 = .eq)

include hstable

/-- Up to the first clash the order is strict. -/
theorem strict_of_firstClash (hnone : firstClash (front ++ [p]) = none) :
    (front ++ [p]).Pairwise fun p q => p.2.compareKey q.2 = .lt := by
  refine (firstClash_eq_none_iff ((hstable.sublist ?_).imp fun h => ?_)).1 hnone
  · exact List.Sublist.append_left (List.singleton_sublist.2 List.mem_cons_self) front
  · rcases h with h | ⟨h, -⟩ <;> rw [h] <;> rfl

/-- What precedes the clash stands in front of it. -/
theorem mem_front (he : e ∈ front ++ p :: q :: rest) (hlt : e.2.compareKey p.2 = .lt) :
    e ∈ front := by
  refine (List.mem_append.1 he).resolve_right fun he => ?_
  have hbehind := (List.pairwise_cons.1 (List.pairwise_append.1 hstable).2.1).1
  have hgt : p.2.compareKey e.2 = .gt := Std.OrientedCmp.gt_of_lt hlt
  rcases List.mem_cons.1 he with rfl | he
  · rw [Action.compareKey_eq_iff.2 ⟨rfl, rfl, rfl, rfl⟩] at hgt
    cases hgt
  · rcases hbehind e he with h | ⟨h, -⟩ <;> rw [h] at hgt <;> cases hgt

include hpq

theorem index_le_of_clash : p.1.index ≤ q.1.index := by
  have hbehind := (List.pairwise_cons.1 (List.pairwise_append.1 hstable).2.1).1
  rcases hbehind q List.mem_cons_self with h | ⟨-, hle⟩
  · rw [hpq] at h
    cases h
  · exact hle

/-- What is like the two actions of the clash and is none of them has been declared behind them. -/
theorem eq_or_le_of_alike (hnone : firstClash (front ++ [p]) = none)
    (he : e ∈ front ++ p :: q :: rest) (hpe : p.2.Alike e.2) : e = p ∨ q.1.index ≤ e.1.index := by
  rcases List.mem_append.1 he with he | he
  · exact .inl (eq_of_alike (strict_of_firstClash hstable hnone) (by simp)
      (List.mem_append_left _ he) hpe).symm
  rcases List.mem_cons.1 he with hsame | he
  · exact .inl hsame
  rcases List.mem_cons.1 he with hsame | he
  · exact .inr (Nat.le_of_eq (congrArg (·.1.index) hsame).symm)
  have hbehind := (List.pairwise_cons.1 (List.pairwise_append.1 hstable).2.1).2
  have hqe : q.2.compareKey e.2 = .eq :=
    Std.TransCmp.eq_trans (Std.OrientedCmp.eq_symm hpq) (Action.compareKey_eq_iff.2 hpe)
  rcases (List.pairwise_cons.1 hbehind).1 e he with h | ⟨-, hle⟩
  · rw [hqe] at h
    cases h
  · exact .inr hle

end Clash

/-- A clash of a list names two actions of it. -/
theorem names_of_firstClash {actions : List Action} {clash : DuplicateAction}
    (h : firstClash (inCanonicalOrder actions) = some clash) : ∃ x, clash.Names actions x := by
  obtain ⟨front, p, q, rest, heq, hpq, rfl, hnone⟩ := exists_of_firstClash h
  have hstable := pairwise_inCanonicalOrder actions
  have hnodup := nodup_inCanonicalOrder actions
  have hentry {i : Nat} {y : Action} : actions[i]? = some y ↔
      ((⟨i⟩, y) : ActionId × Action) ∈ front ++ p :: q :: rest := by
    rw [← heq, mem_inCanonicalOrder]
  rw [heq] at hstable hnodup
  have hstrict := strict_of_firstClash hstable hnone
  refine ⟨p.2, rfl, hentry.2 (by simp), ⟨q.2, hentry.2 (by simp), Action.compareKey_eq_iff.1 hpq⟩,
    ?_, ?_, ?_⟩
  · refine Nat.lt_of_le_of_ne (index_le_of_clash hstable hpq) fun hindex => ?_
    have hsame : p.1 = q.1 := ActionId.ext hindex
    rw [List.map_append, List.map_cons, List.map_cons, hsame] at hnodup
    exact (List.nodup_cons.1 (List.nodup_append.1 hnodup).2.1).1 List.mem_cons_self
  · intro i y hy hpy
    rcases eq_or_le_of_alike hstable hpq hnone (hentry.1 hy) hpy with hsame | hle
    · exact .inl (congrArg (·.1.index) hsame)
    · exact .inr hle
  · -- two actions that are alike and precede the clash would both stand where the order is strict
    intro i j y z hij hy hz hyz hless
    have hlt : y.compareKey p.2 = .lt := Action.compareKey_eq_lt_iff.2 hless
    have hlt' : z.compareKey p.2 = .lt :=
      Std.TransCmp.lt_of_eq_of_lt (Std.OrientedCmp.eq_symm (Action.compareKey_eq_iff.2 hyz)) hlt
    have hsame := eq_of_alike hstrict
      (List.mem_append_left _ (mem_front hstable (hentry.1 hy) hlt))
      (List.mem_append_left _ (mem_front hstable (hentry.1 hz) hlt')) hyz
    have hindex : i = j := congrArg (·.1.index) hsame
    omega

/-! ### Tables -/

/-- The canonical order of a table lists every handle once and is strictly increasing, and any two
handles can be compared and compare like their actions. The names stand in the order of their first
declarations, and the overloads of each in the order of theirs; together they are all handles, each
once. -/
structure ActionTable.IsOrdered (t : ActionTable) : Prop where
  order_perm : t.order.Perm t.ids
  increasing : t.order.Pairwise fun id id' => ∀ x y,
    t.get? id = some x → t.get? id' = some y → x.Precedes y
  compared_eq : ∀ id ∈ t.ids, ∀ id' ∈ t.ids, t.compared id id' = .ok (t.compare id id')
  compare_iff : ∀ id id' x y, t.get? id = some x → t.get? id' = some y →
    (t.compare id id' = .lt ↔ x.Precedes y) ∧ (t.compare id id' = .eq ↔ id = id') ∧
      (t.compare id id' = .gt ↔ y.Precedes x)
  byName?_eq_some_iff : ∀ name group, t.byName? name = some group ↔
    group ≠ [] ∧ group.Pairwise (·.index < ·.index) ∧
      ∀ id, id ∈ group ↔ ∃ x, t.get? id = some x ∧ x.name = name
  mem_names_iff : ∀ name, name ∈ t.names ↔ ∃ id x, t.get? id = some x ∧ x.name = name
  groups_perm : (t.names.flatMap fun name => (t.byName? name).getD []).Perm t.ids
  names_first : t.names.Pairwise fun name name' => ∃ i x, t.actions[i]? = some x ∧ x.name = name ∧
    ∀ (j : Nat) (y : Action), t.actions[j]? = some y → y.name = name' → i < j

namespace ActionTable

variable {t : ActionTable} {id id' : ActionId} {x y : Action} {name : String}
  {group : List ActionId}

theorem eq_of_alike_actions (hx : t.get? id = some x) (hy : t.get? id' = some y)
    (halike : x.Alike y) : id = id' := by
  have hstrict := (firstClash_eq_none_iff (sorted_inCanonicalOrder t.actions)).1 t.no_clash
  have hsame := CallChain.eq_of_alike hstrict (p := (id, x)) (q := (id', y))
    (mem_inCanonicalOrder.2 hx) (mem_inCanonicalOrder.2 hy) halike
  exact congrArg (·.1) hsame

theorem compare_eq_eq_iff (hx : t.get? id = some x) (hy : t.get? id' = some y) :
    t.compare id id' = .eq ↔ id = id' := by
  rw [compare_eq_compareKey hx hy, Action.compareKey_eq_iff]
  constructor
  · exact eq_of_alike_actions hx hy
  · rintro rfl
    rw [hx, Option.some.injEq] at hy
    rw [hy]
    exact ⟨rfl, rfl, rfl, rfl⟩

theorem pairwise_order : t.order.Pairwise fun id id' => ∀ x y,
    t.get? id = some x → t.get? id' = some y → x.Precedes y := by
  have hstrict := (firstClash_eq_none_iff (sorted_inCanonicalOrder t.actions)).1 t.no_clash
  rw [t.order_eq, List.pairwise_map]
  refine hstrict.imp_of_mem fun {p q} hp hq hlt x y hx hy => ?_
  rw [get?, mem_inCanonicalOrder.1 hp] at hx
  rw [get?, mem_inCanonicalOrder.1 hq] at hy
  cases hx
  cases hy
  exact Action.compareKey_eq_lt_iff.1 hlt

/-! ### Overloads -/

theorem pairwise_ids : t.ids.Pairwise (·.index < ·.index) :=
  List.pairwise_map.2 List.pairwise_lt_range

theorem pairwise_members : (t.members name).Pairwise (·.index < ·.index) := by
  unfold members byName?
  split
  · have hids := t.pairwise_ids
    rw [← map_fst_declared_eq_ids] at hids
    exact hids.sublist (List.filter_sublist.map _)
  · exact .nil

theorem byName?_eq_some_iff : t.byName? name = some group ↔
    group ≠ [] ∧ group.Pairwise (·.index < ·.index) ∧
      ∀ id, id ∈ group ↔ ∃ x, t.get? id = some x ∧ x.name = name := by
  have hmembers : t.byName? name = if t.containsName name then some (t.members name) else none := by
    unfold members byName?
    split <;> rfl
  rw [hmembers]
  constructor
  · intro h
    split at h
    next hname =>
      cases h
      obtain ⟨id, x, hid⟩ := containsName_iff.1 hname
      exact ⟨List.ne_nil_of_mem (mem_members.2 ⟨x, hid⟩), pairwise_members, fun _ => mem_members⟩
    next => cases h
  · rintro ⟨hne, hincreasing, hmem⟩
    obtain ⟨id, hid⟩ := List.exists_mem_of_ne_nil group hne
    obtain ⟨x, hx⟩ := (hmem id).1 hid
    rw [if_pos (containsName_iff.2 ⟨id, x, hx⟩), Option.some.injEq]
    have hnodup : group.Nodup :=
      hincreasing.imp fun {a b} hlt heq => Nat.ne_of_lt hlt (congrArg ActionId.index heq)
    have hperm : (t.members name).Perm group :=
      (List.perm_ext_iff_of_nodup nodup_members hnodup).2 fun id => mem_members.trans (hmem id).symm
    exact hperm.eq_of_pairwise (fun _ _ _ _ hlt hgt => absurd hlt (Nat.lt_asymm hgt))
      pairwise_members hincreasing

theorem pairwise_names : t.names.Pairwise fun name name' => ∃ i x,
    t.actions[i]? = some x ∧ x.name = name ∧
      ∀ (j : Nat) (y : Action), t.actions[j]? = some y → y.name = name' → i < j := by
  refine ((nodup_eraseDups _).and (pairwise_eraseDups _)).imp fun {name name'} h => ?_
  obtain ⟨hne, front, rest, heq, hfront⟩ := h
  have hplace : (t.actions.map (·.name))[front.length]? = some name := by
    rw [heq, List.getElem?_append_right (Nat.le_refl _), Nat.sub_self]
    rfl
  rw [List.getElem?_map] at hplace
  obtain ⟨x, hx, hname⟩ := Option.map_eq_some_iff.1 hplace
  refine ⟨front.length, x, hx, hname, fun j y hy hname' => ?_⟩
  have hother : (t.actions.map (·.name))[j]? = some name' := by
    rw [List.getElem?_map, hy, Option.map_some, hname']
  rw [heq] at hother
  rcases Nat.lt_trichotomy j front.length with hlt | rfl | hlt
  · rw [List.getElem?_append_left hlt] at hother
    exact absurd (List.mem_of_getElem? hother) hfront
  · rw [List.getElem?_append_right (Nat.le_refl _), Nat.sub_self] at hother
    exact absurd (Option.some.inj hother) hne
  · exact hlt

variable (t) in
theorem isOrdered : t.IsOrdered where
  order_perm := t.order_perm_ids
  increasing := pairwise_order
  compared_eq _ hid _ hid' := compared_eq hid hid'
  compare_iff id id' x y hx hy := by
    rw [compare_eq_eq_iff hx hy, compare_eq_compareKey hx hy, Action.compareKey_eq_lt_iff,
      Action.compareKey_eq_gt_iff]
    exact ⟨Iff.rfl, Iff.rfl, Iff.rfl⟩
  byName?_eq_some_iff _ _ := byName?_eq_some_iff
  mem_names_iff _ := mem_names.trans containsName_iff
  groups_perm := t.flatMap_members_perm
  names_first := pairwise_names

theorem ofActions?_eq_error_iff {actions : List Action} {clash : DuplicateAction} :
    ofActions? actions = .error clash ↔ firstClash (inCanonicalOrder actions) = some clash := by
  refine ⟨fun h => ?_, ofActions?_eq_error⟩
  cases hclash : firstClash (inCanonicalOrder actions) with
  | none =>
    rw [ofActions?_eq_ok hclash] at h
    cases h
  | some other =>
    rw [ofActions?_eq_error hclash, Except.error.injEq] at h
    rw [h]

theorem actions_eq_of_ofActions? {actions : List Action} (h : ofActions? actions = .ok t) :
    t.actions = actions := by
  cases hclash : firstClash (inCanonicalOrder actions) with
  | none =>
    rw [ofActions?_eq_ok hclash] at h
    cases h
    rfl
  | some clash =>
    rw [ofActions?_eq_error hclash] at h
    cases h

theorem exists_clash_iff {actions : List Action} : (∃ clash, ofActions? actions = .error clash) ↔
    ¬ actions.Pairwise fun x y => x.compareKey y ≠ .eq := by
  rw [← firstClash_inCanonicalOrder_eq_none_iff, ← ne_eq, Option.ne_none_iff_exists']
  exact exists_congr fun clash => ofActions?_eq_error_iff

/-- A list of actions has no table if and only if two of them are alike. The clash names the first
two actions that have the least key of those that several actions have. A table is ordered, and the
tables of permuted lists hold the same actions in the same canonical order. -/
theorem ofActions?_exact :
    (∀ actions, (∃ clash, ofActions? actions = .error clash) ↔
      ∃ (i j : Nat) (x y : Action), i < j ∧ actions[i]? = some x ∧ actions[j]? = some y ∧
        x.Alike y) ∧
    (∀ actions clash, ofActions? actions = .error clash → ∃ x, clash.Names actions x) ∧
    (∀ actions t, ofActions? actions = .ok t → t.actions = actions ∧ t.IsOrdered) ∧
    ∀ actions actions' : List Action, actions.Perm actions' →
      ((∃ clash, ofActions? actions = .error clash) ↔
        ∃ clash, ofActions? actions' = .error clash) ∧
      ∀ t t', ofActions? actions = .ok t → ofActions? actions' = .ok t' →
        t.order.map t.get? = t'.order.map t'.get? := by
  refine ⟨fun actions => ?_,
    fun actions clash h => names_of_firstClash (ofActions?_eq_error_iff.1 h),
    fun actions t h => ⟨actions_eq_of_ofActions? h, t.isOrdered⟩, fun actions actions' hperm => ?_⟩
  · rw [exists_clash_iff, List.pairwise_iff_getElem]
    constructor
    · intro h
      push Not at h
      obtain ⟨i, j, hi, hj, hij, halike⟩ := h
      exact ⟨i, j, _, _, hij, List.getElem?_eq_getElem hi, List.getElem?_eq_getElem hj,
        Action.compareKey_eq_iff.1 halike⟩
    · rintro ⟨i, j, x, y, hij, hx, hy, halike⟩ h
      obtain ⟨hi, rfl⟩ := List.getElem?_eq_some_iff.1 hx
      obtain ⟨hj, rfl⟩ := List.getElem?_eq_some_iff.1 hy
      exact h i j hi hj hij (Action.compareKey_eq_iff.2 halike)
  · constructor
    · rw [exists_clash_iff, exists_clash_iff, hperm.pairwise_iff compareKey_ne_symm]
    · intro t t' ht ht'
      have hactions := actions_eq_of_ofActions? ht
      have hactions' := actions_eq_of_ofActions? ht'
      rw [map_get?_order, map_get?_order, canonicalActions_eq_of_perm _ t.no_clash t'.no_clash]
      rw [hactions, hactions']
      exact hperm

/-- An action with a parameter, of which the flag makes no difference. -/
def addInt (isGlobal : Bool) : Action := ⟨"add", "add", ["int"], "void", isGlobal, false, true⟩

/-- `add(int)` is declared three times, and `to` twice. -/
def repeated : List Action :=
  [.ofName "to", addInt false, .ofName "to", .ofName "add", addInt true, addInt false]

/-- Overloads that are declared far apart. -/
def scattered : List Action :=
  [.ofName "to", addInt false, ⟨"to", "end", ["int", "int"], "Date", false, true, false⟩,
    .ofName "add"]

theorem ofActions?_exact_scattered :
    (ofActions? repeated = .error ⟨"add(int)->void", ⟨1⟩, ⟨4⟩⟩ ∧
      ∃ x, DuplicateAction.Names ⟨"add(int)->void", ⟨1⟩, ⟨4⟩⟩ repeated x) ∧
    ∃ t t', ofActions? scattered = .ok t ∧ ofActions? scattered.reverse = .ok t' ∧
      t.order = [⟨3⟩, ⟨1⟩, ⟨2⟩, ⟨0⟩] ∧ t.names = ["to", "add"] ∧ t.IsOrdered ∧
      t.order.map t.get? = t'.order.map t'.get? := by
  obtain ⟨-, hclash, hordered, hperm⟩ := ofActions?_exact
  have hrepeated : ofActions? repeated = .error ⟨"add(int)->void", ⟨1⟩, ⟨4⟩⟩ :=
    ofActions?_eq_error (by decide)
  have hfree : firstClash (inCanonicalOrder scattered) = none := by decide
  have hfree' : firstClash (inCanonicalOrder scattered.reverse) = none := by decide
  have hok := ofActions?_eq_ok hfree
  have hok' := ofActions?_eq_ok hfree'
  have horder : (inCanonicalOrder scattered).map (·.1) = [⟨3⟩, ⟨1⟩, ⟨2⟩, ⟨0⟩] := by decide
  have hnames : (scattered.map (·.name)).eraseDups = ["to", "add"] := by decide
  have hreverse : scattered.Perm scattered.reverse := (List.reverse_perm scattered).symm
  exact ⟨⟨hrepeated, hclash _ _ hrepeated⟩, _, _, hok, hok', horder, hnames,
    (hordered _ _ hok).2, (hperm _ _ hreverse).2 _ _ hok hok'⟩

end ActionTable
end CallChain
