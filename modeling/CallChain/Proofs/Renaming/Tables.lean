import CallChain.Automaton.Basic
import CallChain.Proofs.ActionTable
import Mathlib.Logic.Equiv.Defs

/-!
# Tables of permuted declarations

Whether a list of actions has a table does not depend on its order, and neither does anything in a
table but the handles: the canonical order of a permuted list names the same actions by other
handles (`ActionTable.Renames`).

* `firstClash_inCanonicalOrder_eq_none_iff`: which lists have a table.
* `exists_renames`: the tables of two permuted lists.
-/

namespace CallChain

/-! ### The canonical comparison -/

instance : Std.TransCmp Action.compareKey :=
  inferInstanceAs <| Std.TransCmp <| compareLex (compareOn Action.name) <|
    compareLex (compareOn Action.operation) <|
      compareLex (compareOn Action.params) (compareOn Action.returns)

/-- The comparison by which declared actions are sorted. -/
theorem isLE_sortKey_iff {p q : ActionId × Action} :
    ((p.2.compareKey q.2).then (compare p.1.index q.1.index)).isLE = true ↔
      p.2.compareKey q.2 = .lt ∨ p.2.compareKey q.2 = .eq ∧ p.1.index ≤ q.1.index := by
  cases p.2.compareKey q.2 <;> simp [Ordering.then, Nat.isLE_compare]

/-- What is not told apart stays in the order of the declarations. -/
theorem pairwise_inCanonicalOrder (actions : List Action) :
    (inCanonicalOrder actions).Pairwise fun p q =>
      p.2.compareKey q.2 = .lt ∨ p.2.compareKey q.2 = .eq ∧ p.1.index ≤ q.1.index := by
  refine (pairwise_sortBy ?_ ?_ (declared actions)).imp isLE_sortKey_iff.1
  · intro p q o hpq hqo
    rw [isLE_sortKey_iff] at hpq hqo ⊢
    rcases hpq with hpq | ⟨hpq, hle⟩ <;> rcases hqo with hqo | ⟨hqo, hle'⟩
    · exact .inl (Std.TransCmp.lt_trans hpq hqo)
    · exact .inl (Std.TransCmp.lt_of_lt_of_eq hpq hqo)
    · exact .inl (Std.TransCmp.lt_of_eq_of_lt hpq hqo)
    · exact .inr ⟨Std.TransCmp.eq_trans hpq hqo, Nat.le_trans hle hle'⟩
  · intro p q
    rw [isLE_sortKey_iff, isLE_sortKey_iff]
    cases hpq : p.2.compareKey q.2 with
    | lt => exact .inl (.inl rfl)
    | eq =>
      rw [Std.OrientedCmp.eq_symm hpq]
      rcases Nat.le_total p.1.index q.1.index with hle | hle
      · exact .inl (.inr ⟨rfl, hle⟩)
      · exact .inr (.inr ⟨rfl, hle⟩)
    | gt => exact .inr (.inl (Std.OrientedCmp.lt_of_gt hpq))

theorem sorted_inCanonicalOrder (actions : List Action) :
    (inCanonicalOrder actions).Pairwise fun p q => (p.2.compareKey q.2).isLE = true :=
  (pairwise_inCanonicalOrder actions).imp fun h => by
    rcases h with h | ⟨h, -⟩ <;> rw [h] <;> rfl

/-- A sorted list has no clash exactly if it is strictly sorted. -/
theorem firstClash_eq_none_iff {ps : List (ActionId × Action)}
    (hsorted : ps.Pairwise fun p q => (p.2.compareKey q.2).isLE = true) :
    firstClash ps = none ↔ ps.Pairwise fun p q => p.2.compareKey q.2 = .lt := by
  induction ps with
  | nil => simp [firstClash]
  | cons p ps ih =>
    cases ps with
    | nil => simp [firstClash]
    | cons q ps =>
      rw [List.pairwise_cons] at hsorted
      rw [firstClash]
      constructor
      · intro h
        split at h
        · cases h
        next hne =>
          have hrest := (ih hsorted.2).1 h
          have hlt : p.2.compareKey q.2 = .lt :=
            Ordering.isLE_iff_eq_lt_or_eq_eq.1 (hsorted.1 q List.mem_cons_self) |>.resolve_right hne
          refine List.pairwise_cons.2 ⟨List.forall_mem_cons.2 ⟨hlt, fun o ho => ?_⟩, hrest⟩
          exact Std.TransCmp.lt_trans hlt (List.rel_of_pairwise_cons hrest ho)
      · intro h
        rw [List.rel_of_pairwise_cons h List.mem_cons_self, if_neg (by decide)]
        exact (ih hsorted.2).2 h.of_cons

theorem map_snd_declared (actions : List Action) : (declared actions).map (·.2) = actions := by
  rw [declared, List.map_map]
  exact List.zipIdx_map_fst 0 actions

/-- The declared actions in canonical order. -/
def canonicalActions (actions : List Action) : List Action :=
  (inCanonicalOrder actions).map (·.2)

theorem canonicalActions_perm (actions : List Action) :
    (canonicalActions actions).Perm actions := by
  have hperm : (canonicalActions actions).Perm ((declared actions).map (·.2)) :=
    (sortBy_perm _ _).map _
  rwa [map_snd_declared] at hperm

theorem compareKey_ne_symm {x y : Action} (h : x.compareKey y ≠ .eq) : y.compareKey x ≠ .eq :=
  fun heq => h (Std.OrientedCmp.eq_symm heq)

theorem pairwise_canonicalActions_of_firstClash {actions : List Action}
    (h : firstClash (inCanonicalOrder actions) = none) :
    (canonicalActions actions).Pairwise fun x y => x.compareKey y = .lt :=
  List.pairwise_map.2 ((firstClash_eq_none_iff (sorted_inCanonicalOrder actions)).1 h)

/-- A list has no clash exactly if no two of its actions are alike. -/
theorem firstClash_inCanonicalOrder_eq_none_iff {actions : List Action} :
    firstClash (inCanonicalOrder actions) = none ↔
      actions.Pairwise fun x y => x.compareKey y ≠ .eq := by
  rw [← (canonicalActions_perm actions).pairwise_iff compareKey_ne_symm]
  constructor
  · intro h
    refine (pairwise_canonicalActions_of_firstClash h).imp fun hlt => ?_
    rw [hlt]
    decide
  · intro h
    have hsorted := sorted_inCanonicalOrder actions
    rw [firstClash_eq_none_iff hsorted]
    refine hsorted.imp₂ (fun p q hle hne => ?_) (List.pairwise_map.1 h)
    exact (Ordering.isLE_iff_eq_lt_or_eq_eq.1 hle).resolve_right hne

/-- Permuted lists without clashes are one list in canonical order. -/
theorem canonicalActions_eq_of_perm {actions actions' : List Action} (h : actions.Perm actions')
    (hclash : firstClash (inCanonicalOrder actions) = none)
    (hclash' : firstClash (inCanonicalOrder actions') = none) :
    canonicalActions actions = canonicalActions actions' := by
  have hperm : (canonicalActions actions).Perm (canonicalActions actions') :=
    (canonicalActions_perm actions).trans (h.trans (canonicalActions_perm actions').symm)
  refine hperm.eq_of_pairwise (fun x y _ _ hlt hgt => ?_)
    (pairwise_canonicalActions_of_firstClash hclash)
    (pairwise_canonicalActions_of_firstClash hclash')
  -- No two actions come strictly before each other.
  exact absurd hgt (Std.OrientedCmp.not_lt_of_lt hlt)

namespace ActionTable

theorem ofActions?_eq_ok {actions : List Action}
    (h : firstClash (inCanonicalOrder actions) = none) :
    ofActions? actions = .ok ⟨actions, (inCanonicalOrder actions).map (·.1), rfl, h⟩ := by
  unfold ofActions?
  split
  next heq =>
    rw [h] at heq
    cases heq
  next => rfl

theorem ofActions?_eq_error {actions : List Action} {clash : DuplicateAction}
    (h : firstClash (inCanonicalOrder actions) = some clash) :
    ofActions? actions = .error clash := by
  unfold ofActions?
  split
  next heq =>
    rw [h] at heq
    cases heq
    rfl
  next heq =>
    rw [h] at heq
    cases heq

/-- A label tells overloads apart, and only how many there are decides whether it does. -/
theorem labelOf_eq_of_length_eq {t t' : ActionTable} {action : Action}
    (h : (t'.members action.name).length = (t.members action.name).length) :
    t'.labelOf action = t.labelOf action := by
  have hoverloaded : t'.isOverloaded action.name = t.isOverloaded action.name := by
    show decide (1 < (t'.members action.name).length) = decide (1 < (t.members action.name).length)
    rw [h]
  rw [labelOf, labelOf, hoverloaded]

/-! ### Renamed handles -/

/-- Two tables of the same actions, which `σ` leads to. -/
structure Renames (σ : ActionId ≃ ActionId) (t t' : ActionTable) : Prop where
  order_eq : t'.order = t.order.map σ
  get?_eq : ∀ id, t'.get? (σ id) = t.get? id

variable {t t' : ActionTable}

/-- The actions behind the canonical order. -/
theorem map_get?_order : t.order.map t.get? = (canonicalActions t.actions).map some := by
  rw [t.order_eq, canonicalActions, List.map_map, List.map_map]
  refine List.map_congr_left fun p hp => ?_
  exact mem_declared.1 ((mem_sortBy _).1 hp)

/-- The canonical order lists an action at the place of its handle. -/
theorem getElem?_canonicalActions {id : ActionId} {action : Action}
    (hget : t.get? id = some action) :
    (canonicalActions t.actions)[t.order.idxOf id]? = some action := by
  have hid : id ∈ t.order := mem_order.2 (mem_ids.2 ⟨action, hget⟩)
  have hplace := congrArg (·[t.order.idxOf id]?) t.map_get?_order
  simp only [List.getElem?_map, List.getElem?_idxOf hid, Option.map_some, hget] at hplace
  obtain ⟨action', haction', heq⟩ := Option.map_eq_some_iff.1 hplace.symm
  rw [haction', Option.some.inj heq]

/-- Places in the canonical order compare like the actions at them. -/
theorem compare_eq_compareKey {id id' : ActionId} {action action' : Action}
    (hget : t.get? id = some action) (hget' : t.get? id' = some action') :
    t.compare id id' = action.compareKey action' := by
  obtain ⟨hlt, haction⟩ := List.getElem?_eq_some_iff.1 (getElem?_canonicalActions hget)
  obtain ⟨hlt', haction'⟩ := List.getElem?_eq_some_iff.1 (getElem?_canonicalActions hget')
  have hsorted := List.pairwise_iff_getElem.1
    (pairwise_canonicalActions_of_firstClash t.no_clash)
  rw [compare]
  rcases Nat.lt_trichotomy (t.order.idxOf id) (t.order.idxOf id') with hbefore | hsame | hbehind
  · rw [Nat.compare_eq_lt.2 hbefore, ← haction, ← haction', hsorted _ _ hlt hlt' hbefore]
  · have heq : action = action' := by simp only [← haction, ← haction', hsame]
    rw [hsame, Nat.compare_eq_eq.2 rfl, heq]
    exact (Action.compareKey_eq_iff.2 ⟨rfl, rfl, rfl, rfl⟩).symm
  · rw [Nat.compare_eq_gt.2 hbehind, ← haction, ← haction']
    exact (Std.OrientedCmp.gt_of_lt (hsorted _ _ hlt' hlt hbehind)).symm

/-- The tables of two permuted lists hold the same actions. -/
theorem exists_renames (h : t.actions.Perm t'.actions) : ∃ σ, Renames σ t t' := by
  have hids : t.ids = t'.ids := by rw [ids, ids, size, size, h.length_eq]
  have hperm : t.order.Perm t'.order :=
    t.order_perm_ids.trans (hids ▸ t'.order_perm_ids.symm)
  have horder := map_matching t.nodup_order hperm
  refine ⟨matching t.order t'.order t.nodup_order hperm, horder.symm, fun id => ?_⟩
  by_cases hid : id ∈ t.order
  · have hactions : (t.order.map (matching t.order t'.order t.nodup_order hperm)).map t'.get? =
        t.order.map t.get? := by
      rw [horder, map_get?_order, map_get?_order,
        canonicalActions_eq_of_perm h t.no_clash t'.no_clash]
    rw [List.map_map] at hactions
    exact List.map_inj_left.1 hactions id hid
  · -- A handle from elsewhere is left alone and leads nowhere.
    have hnone {t : ActionTable} (hid : id ∉ t.order) : t.get? id = none := by
      rw [mem_order, mem_ids, not_exists] at hid
      exact Option.eq_none_iff_forall_ne_some.2 hid
    show t'.get? (elementAt t.order t'.order id) = _
    rw [elementAt_of_not_mem hperm.length_eq hid, hnone hid, hnone (mt hperm.mem_iff.2 hid)]

namespace Renames

variable {σ : ActionId ≃ ActionId} (h : Renames σ t t') {id : ActionId} {name : String}

include h

theorem mem_ids_iff : σ id ∈ t'.ids ↔ id ∈ t.ids := by
  rw [mem_ids, mem_ids, h.get?_eq]

theorem holds_eq (flag : Action → Bool) : t'.holds flag (σ id) = t.holds flag id := by
  rw [holds, holds, h.get?_eq]

theorem mem_members_iff : σ id ∈ t'.members name ↔ id ∈ t.members name := by
  rw [mem_members, mem_members, h.get?_eq]

theorem containsName_eq : t'.containsName name = t.containsName name := by
  rw [Bool.eq_iff_iff, containsName_iff, containsName_iff]
  constructor
  · rintro ⟨id, action, hget, hname⟩
    refine ⟨σ.symm id, action, ?_, hname⟩
    rwa [← h.get?_eq, σ.apply_symm_apply]
  · rintro ⟨id, action, hget, hname⟩
    exact ⟨σ id, action, by rwa [h.get?_eq], hname⟩

/-- A name has as many overloads under other handles. -/
theorem length_members_eq : (t'.members name).length = (t.members name).length := by
  have hperm : (t'.members name).Perm ((t.members name).map σ) := by
    refine (List.perm_ext_iff_of_nodup nodup_members (nodup_members.map σ.injective)).2 fun id => ?_
    rw [← σ.apply_symm_apply id, h.mem_members_iff, List.mem_map_of_injective σ.injective]
  rw [hperm.length_eq, List.length_map]

theorem labelOf_eq (action : Action) : t'.labelOf action = t.labelOf action :=
  labelOf_eq_of_length_eq h.length_members_eq

theorem get_eq {action : Action} (hget : t.get? id = some action) :
    t'.get (σ id) = t.get id := by
  rw [get, get, h.get?_eq, hget]

theorem label_eq {action : Action} (hget : t.get? id = some action) :
    t'.label (σ id) = t.label id := by
  rw [label, label, h.get_eq hget, get, hget]
  exact congrArg Except.ok (h.labelOf_eq action)

/-- A renamed action has its old place in the canonical order. -/
theorem idxOf_order_eq : t'.order.idxOf (σ id) = t.order.idxOf id := by
  rw [h.order_eq, idxOf_map fun _ _ heq => σ.injective heq]

theorem compare_eq {id' : ActionId} : t'.compare (σ id) (σ id') = t.compare id id' := by
  rw [compare, compare, h.idxOf_order_eq, h.idxOf_order_eq]

end Renames

end ActionTable
end CallChain
