import CallChain.Proofs.Resolution.Search

/-!
# Recursive references

Defined bodies that the root reaches refer to each other (`Registry.Refers`). A reference is met as
recursive when its body waits, so it closes a cycle. Of the other references each leads from a body
to one that was finished earlier, so they form no cycle: the names that are done stand in the order
in which their bodies were finished, the last one first.

* `Search.exists_refers`: recursive references close cycles.
* `Search.descending`: the others lead to what was finished earlier.
* `Search.not_transGen_remaining`: without the recursive references there is no cycle.
-/

namespace CallChain

open Relation

/-! ### Descending lists -/

/-- Each entry is related only to entries behind it. -/
def Descending {α : Type} (R : α → α → Prop) : List α → Prop
  | [] => True
  | a :: as => (∀ b, R a b → b ∈ as) ∧ Descending R as

theorem Descending.mem {α : Type} {R : α → α → Prop} {as : List α} {a b : α}
    (h : Descending R as) (ha : a ∈ as) (hR : R a b) : b ∈ as := by
  induction as with
  | nil => cases ha
  | cons first as ih =>
    rcases List.mem_cons.1 ha with rfl | ha
    · exact List.mem_cons_of_mem _ (h.1 b hR)
    · exact List.mem_cons_of_mem _ (ih h.2 ha)

theorem Descending.mem_of_reflTransGen {α : Type} {R : α → α → Prop} {as : List α} {a b : α}
    (h : Descending R as) (ha : a ∈ as) (hab : ReflTransGen R a b) : b ∈ as := by
  induction hab with
  | refl => exact ha
  | tail _ hstep ih => exact h.mem ih hstep

/-- Nothing in a descending list leads back to itself. -/
theorem Descending.not_transGen {α : Type} {R : α → α → Prop} {as : List α} {a : α}
    (h : Descending R as) (hnodup : as.Nodup) (ha : a ∈ as) : ¬TransGen R a a := by
  induction as with
  | nil => cases ha
  | cons first as ih =>
    rw [List.nodup_cons] at hnodup
    rcases List.mem_cons.1 ha with rfl | ha
    · -- a step leads behind the entry, and no further step leads back
      intro hcycle
      obtain ⟨b, hstep, hrest⟩ := TransGen.head'_iff.1 hcycle
      exact hnodup.1 (h.2.mem_of_reflTransGen (h.1 b hstep) hrest)
    · exact ih h.2 hnodup.2 ha

namespace Registry

/-- One body that the root reaches refers to another one by name, and both are defined. -/
def Refers (r : Registry) (a b : String) : Prop :=
  r.Reaches a ∧ r.contains b = true ∧
    ∃ expr, r.find? a = some expr ∧ ∃ ref ∈ expr.body.refs, ref.text = b

/-- What is left of the references without some of them. -/
def Remaining (r : Registry) (back : List (SubExpression × Name)) (a b : String) : Prop :=
  r.Refers a b ∧ ∀ site ∈ back, site.1.name = some a → site.2.text ≠ b

variable {r : Registry} {expr : SubExpression} {path done done' : List String}
  {names : List Name} {log : List Encounter}

/-! ### References to bodies that wait -/

/-- A body is visited while others wait for it: each of them leads to it. -/
structure Waiting (r : Registry) (path : List String) (expr : SubExpression) : Prop where
  reaches : ∀ ref ∈ expr.body.refs, r.Reaches ref.text
  leads : ∀ via ∈ path, ∃ name, r.Reaches name ∧ r.find? name = some expr ∧
    ReflTransGen r.Refers via name

theorem Waiting.root : r.Waiting [] r.root where
  reaches _ href := .root href
  leads := by simp

theorem Waiting.below {target : SubExpression} {ref : Name} (h : r.Waiting path expr)
    (href : ref ∈ expr.body.refs) (htarget : r.find? ref.text = some target) :
    r.Waiting (ref.text :: path) target where
  reaches _ hother := .step (h.reaches ref href) htarget hother
  leads := by
    rw [List.forall_mem_cons]
    refine ⟨⟨ref.text, h.reaches ref href, htarget, .refl⟩, fun via hvia => ?_⟩
    obtain ⟨name, hreached, hname, hleads⟩ := h.leads via hvia
    have hrefers : r.Refers name ref.text :=
      ⟨hreached, contains_of_find? htarget, expr, hname, ref, href, rfl⟩
    exact ⟨ref.text, h.reaches ref href, htarget, hleads.tail hrefers⟩

namespace Search

/-- A recursive reference closes a cycle. -/
theorem exists_refers (h : r.Search path expr names done log done') (hwaiting : r.Waiting path expr)
    (hnames : ∀ name ∈ names, name ∈ expr.body.refs) :
    ∀ site ∈ log.filterMap Encounter.recursive?, site.2 ∈ site.1.body.refs ∧
      ∃ name, r.find? name = some site.1 ∧ r.Refers name site.2.text ∧
        ReflTransGen r.Refers site.2.text name := by
  induction h with
  | nil => simp
  | undefined _ _ ih => exact ih hwaiting (List.forall_mem_cons.1 hnames).2
  | @recursive path expr ref names _ _ log hdefined hpath _ ih =>
    obtain ⟨href, hnames⟩ := List.forall_mem_cons.1 hnames
    rw [List.filterMap_cons_some (f := Encounter.recursive?) (b := (expr, ref)) rfl,
      List.forall_mem_cons]
    refine ⟨⟨href, ?_⟩, ih hwaiting hnames⟩
    obtain ⟨name, hreached, hname, hleads⟩ := hwaiting.leads _ hpath
    exact ⟨name, hname, ⟨hreached, hdefined, expr, hname, ref, href, rfl⟩, hleads⟩
  | known _ _ _ _ ih => exact ih hwaiting (List.forall_mem_cons.1 hnames).2
  | @descend path expr target ref names _ _ _ _ _ hname _ _ _ _ ihbody ihrest =>
    obtain ⟨href, hnames⟩ := List.forall_mem_cons.1 hnames
    rw [List.filterMap_cons_none rfl, List.filterMap_append, List.forall_mem_append]
    exact ⟨ihbody (hwaiting.below href hname) fun _ hmem => (firstMentions _).mem hmem,
      ihrest hwaiting hnames⟩

/-! ### Other references -/

theorem mem_done_or_recursive (h : r.Search path expr names done log done') :
    ∀ name ∈ names, r.contains name.text = true →
      name.text ∈ done' ∨ (expr, name) ∈ log.filterMap Encounter.recursive? := by
  induction h with
  | nil => simp
  | undefined hname _ ih =>
    rw [List.forall_mem_cons, contains_eq_false hname]
    exact ⟨fun hdefined => absurd hdefined Bool.false_ne_true, ih⟩
  | @recursive path expr ref _ _ _ _ _ _ _ ih =>
    rw [List.forall_mem_cons, List.filterMap_cons_some (f := Encounter.recursive?)
      (b := (expr, ref)) rfl]
    refine ⟨fun _ => .inr List.mem_cons_self, fun name hmem hdefined => ?_⟩
    exact (ih name hmem hdefined).imp_right (List.mem_cons_of_mem _)
  | known _ _ hdone hrest ih =>
    exact List.forall_mem_cons.2 ⟨fun _ => .inl (hrest.subset_done hdone), ih⟩
  | descend _ _ _ _ hrest _ ih =>
    rw [List.forall_mem_cons, List.filterMap_cons_none rfl, List.filterMap_append]
    refine ⟨fun _ => .inl (hrest.subset_done List.mem_cons_self), fun name hmem hdefined => ?_⟩
    exact (ih name hmem hdefined).imp_right (List.mem_append_right _)

/-- What is done stays in the order in which it was finished: a reference that is not recursive
leads to what was finished earlier. -/
theorem descending {back : List (SubExpression × Name)}
    (h : r.Search path expr names done log done') (hdone : Descending (r.Remaining back) done)
    (hback : log.filterMap Encounter.recursive? ⊆ back) :
    Descending (r.Remaining back) done' := by
  induction h with
  | nil => exact hdone
  | undefined _ _ ih => exact ih hdone hback
  | recursive _ _ _ ih => exact ih hdone (List.subset_of_cons_subset hback)
  | known _ _ _ _ ih => exact ih hdone hback
  | @descend path expr target ref names done inner done' below log hname _ _ hbody _ ihbody
      ihrest =>
    rw [List.filterMap_cons_none rfl, List.filterMap_append, List.append_subset] at hback
    obtain ⟨hbelow, hlater⟩ := hback
    refine ihrest ⟨?_, ihbody hdone hbelow⟩ hlater
    rintro other ⟨⟨-, hdefined, expr', hname', ref', href, rfl⟩, hspared⟩
    rw [hname] at hname'
    cases hname'
    obtain ⟨first, hfirst, htext⟩ := (firstMentions target.body.refs).exists_mem href
    rw [← htext] at hdefined hspared ⊢
    refine (hbody.mem_done_or_recursive first hfirst hdefined).resolve_right fun hsite => ?_
    exact hspared _ (hbelow hsite) (name_of_find? hname) rfl

variable (h : r.Search [] r.root (firstOccurrences [] r.root.body.refs) [] log done)

include h

/-- Without the recursive references no body leads to itself. -/
theorem not_transGen_remaining (name : String) :
    ¬TransGen (r.Remaining (log.filterMap Encounter.recursive?)) name name := by
  intro hcycle
  obtain ⟨_, ⟨⟨hreached, -, target, hname, -⟩, -⟩, -⟩ := TransGen.head'_iff.1 hcycle
  have hdone : name ∈ done :=
    h.mem_done_iff.2 (.inl (List.mem_map_of_mem (h.mem_entries_iff.2 ⟨hreached, hname⟩)))
  exact (h.descending trivial (List.Subset.refl _)).not_transGen (h.nodup_done List.nodup_nil)
    hdone hcycle

end Search
end Registry
end CallChain
