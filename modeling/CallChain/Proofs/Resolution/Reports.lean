import CallChain.Proofs.Resolution.Cycles

/-!
# Resolving reports the problems of the reachable graph

The reports of a resolution are those of what its search meets, and the search meets what the root
reaches: each body once, with its literals, each undefined name of a body where it occurs first, and
the references that close cycles.

* `Search.perm_undefined`: the undefined names that a search meets.
* `exact_resolve`: what a resolution reports.
* `resolve_exact`: a resolution ends, and reports just that.
-/

namespace CallChain

open Relation

theorem Diagnostics.ofKind_append (ds ds' : Diagnostics) (kind : DiagnosticKind) :
    ofKind (ds ++ ds') kind = ofKind ds kind ++ ofKind ds' kind :=
  List.filter_append ..

namespace Registry

/-- What resolving has to find. `visited` are the definitions that are checked besides the root, and
`back` are the references that are reported as recursive, each with the body that it stands in. -/
structure Exact (r : Registry) (t : ActionTable) (resolved : Resolved)
    (visited : List (String × SubExpression)) (back : List (SubExpression × Name)) : Prop where
  visited_nodup : (visited.map (·.1)).Nodup
  /-- The definitions that are checked are those that the root reaches. -/
  mem_visited_iff : ∀ name expr, (name, expr) ∈ visited ↔
    r.Reaches name ∧ r.find? name = some expr
  /-- Every occurrence of a literal without an action is reported, body by body. -/
  undefinedIdentifier : Diagnostics.ofKind resolved.diagnostics .undefinedIdentifier =
    (r.root :: visited.map (·.2)).flatMap fun expr =>
      (expr.body.literals.filter fun name => !t.containsName name.text).map
        (Visits.problem .undefinedIdentifier expr)
  /-- Every undefined name is reported once for each body, where it occurs first. -/
  undefinedSubExpression : ∃ firsts : SubExpression → List Name,
    (∀ expr, FirstMentions expr.body.refs (firsts expr)) ∧
    (Diagnostics.ofKind resolved.diagnostics .undefinedSubExpression).Perm
      ((r.root :: visited.map (·.2)).flatMap fun expr =>
        ((firsts expr).filter fun name => !r.contains name.text).map
          (Visits.problem .undefinedSubExpression expr))
  recursiveSubExpression : Diagnostics.ofKind resolved.diagnostics .recursiveSubExpression =
    back.map fun site => Visits.problem .recursiveSubExpression site.1 site.2
  /-- What is reported as recursive is a reference on a cycle. -/
  on_cycle : ∀ site ∈ back, site.2 ∈ site.1.body.refs ∧
    ∃ name, r.find? name = some site.1 ∧ r.Refers name site.2.text ∧
      ReflTransGen r.Refers site.2.text name
  /-- The references that are left form no cycle. -/
  acyclic : ∀ name, ¬TransGen (r.Remaining back) name name
  back_ne_nil_iff : back ≠ [] ↔ ∃ name, TransGen r.Refers name name
  /-- Definitions that the root does not reach are unused, in definition order. -/
  unused_sublist : resolved.unused.Sublist r.names
  mem_unused_iff : ∀ name, name ∈ resolved.unused ↔ name ∈ r.names ∧ ¬r.Reaches name
  unusedSubExpression : Diagnostics.ofKind resolved.diagnostics .unusedSubExpression =
    (r.named.filter fun entry => resolved.unused.contains entry.1).map unusedWarning
  /-- Nothing else is reported. -/
  kind_mem : ∀ d ∈ resolved.diagnostics, d.kind ∈ [DiagnosticKind.undefinedIdentifier,
    .undefinedSubExpression, .recursiveSubExpression, .unusedSubExpression]

variable {r : Registry} {t : ActionTable} {expr : SubExpression} {path done done' : List String}
  {names : List Name} {log : List Encounter}

/-! ### Reports by kind -/

theorem kind_of_mem_undeclared {d : Diagnostic} (hd : d ∈ undeclared t expr) :
    d.kind = .undefinedIdentifier := by
  obtain ⟨name, -, rfl⟩ := List.mem_map.1 hd
  rfl

theorem ofKind_undeclared {kind : DiagnosticKind} : Diagnostics.ofKind (undeclared t expr) kind =
    if kind = .undefinedIdentifier then undeclared t expr else [] := by
  split
  · next heq =>
    subst heq
    exact List.filter_eq_self.2 fun d hd => by simpa using kind_of_mem_undeclared hd
  · next hne =>
    refine List.filter_eq_nil_iff.2 fun d hd => ?_
    rw [kind_of_mem_undeclared hd]
    simpa using Ne.symm hne

/-- The reports of one kind are those of what is reported with this kind. -/
theorem ofKind_flatMap_reports {α : Type} {kind : DiagnosticKind} {select : Encounter → Option α}
    {f : α → Diagnostics}
    (h : ∀ met, Diagnostics.ofKind (Encounter.reports t met) kind = (select met).elim [] f)
    (log : List Encounter) : Diagnostics.ofKind (log.flatMap (·.reports t)) kind =
      (log.filterMap select).flatMap f := by
  induction log with
  | nil => rfl
  | cons met log ih =>
    rw [List.flatMap_cons, Diagnostics.ofKind_append, ih, h]
    cases hmet : select met with
    | none => rw [List.filterMap_cons_none hmet]; rfl
    | some x => rw [List.filterMap_cons_some hmet, List.flatMap_cons]; rfl

theorem ofKind_undefinedIdentifier (log : List Encounter) :
    Diagnostics.ofKind (log.flatMap (·.reports t)) .undefinedIdentifier =
      (entries log).flatMap fun entry => undeclared t entry.2 := by
  refine ofKind_flatMap_reports (fun met => ?_) log
  cases met with
  | entered name expr => exact ofKind_undeclared
  | undefined expr name => rfl
  | recursive expr name => rfl

theorem ofKind_undefinedSubExpression (log : List Encounter) :
    Diagnostics.ofKind (log.flatMap (·.reports t)) .undefinedSubExpression =
      (log.filterMap Encounter.undefined?).map fun site =>
        Visits.problem .undefinedSubExpression site.1 site.2 := by
  rw [List.map_eq_flatMap]
  refine ofKind_flatMap_reports (fun met => ?_) log
  cases met with
  | entered name expr => exact ofKind_undeclared
  | undefined expr name => rfl
  | recursive expr name => rfl

theorem ofKind_recursiveSubExpression (log : List Encounter) :
    Diagnostics.ofKind (log.flatMap (·.reports t)) .recursiveSubExpression =
      (log.filterMap Encounter.recursive?).map fun site =>
        Visits.problem .recursiveSubExpression site.1 site.2 := by
  rw [List.map_eq_flatMap]
  refine ofKind_flatMap_reports (fun met => ?_) log
  cases met with
  | entered name expr => exact ofKind_undeclared
  | undefined expr name => rfl
  | recursive expr name => rfl

/-- A search finds problems, and no warnings. -/
theorem kind_mem_of_mem_flatMap {d : Diagnostic} (hd : d ∈ log.flatMap (·.reports t)) :
    d.kind ∈ [DiagnosticKind.undefinedIdentifier, .undefinedSubExpression,
      .recursiveSubExpression] := by
  obtain ⟨met, -, hd⟩ := List.mem_flatMap.1 hd
  cases met with
  | entered name expr => simp [kind_of_mem_undeclared hd]
  | undefined expr name => simp [List.mem_singleton.1 hd, Visits.problem]
  | recursive expr name => simp [List.mem_singleton.1 hd, Visits.problem]

/-! ### Undefined names -/

/-- The names that no definition has, with the body that they stand in. -/
def unresolved (r : Registry) (expr : SubExpression) (names : List Name) :
    List (SubExpression × Name) :=
  (names.filter fun name => !r.contains name.text).map (expr, ·)

theorem unresolved_cons_of_contains {name : Name} (h : r.contains name.text = true) :
    r.unresolved expr (name :: names) = r.unresolved expr names := by
  rw [unresolved, List.filter_cons_of_neg (by simp [h])]
  rfl

/-- A search meets the undefined names among the references that it follows, and those of each body
that it visits. -/
theorem Search.perm_undefined (h : r.Search path expr names done log done') :
    (log.filterMap Encounter.undefined?).Perm (r.unresolved expr names ++
      (entries log).flatMap fun entry =>
        r.unresolved entry.2 (firstOccurrences [] entry.2.body.refs)) := by
  induction h with
  | nil => exact .refl _
  | @undefined path expr name names _ _ _ hname _ ih =>
    rw [unresolved, List.filter_cons_of_pos (by simp [contains_eq_false hname])]
    exact ih.cons _
  | recursive hname _ _ ih => rwa [unresolved_cons_of_contains hname]
  | known hname _ _ _ ih => rwa [unresolved_cons_of_contains hname]
  | descend hname _ _ _ _ ihbody ihrest =>
    rw [unresolved_cons_of_contains (contains_of_find? hname), List.filterMap_cons_none rfl,
      List.filterMap_append, entries_entered, entries_append, List.flatMap_cons,
      List.flatMap_append]
    refine (ihbody.append ihrest).trans ((List.perm_append_comm_assoc _ _ _).trans ?_)
    rw [List.append_assoc]

/-! ### What a resolution reports -/

section Root

variable (h : r.Search [] r.root (firstOccurrences [] r.root.body.refs) [] log done)

include h

theorem Search.mem_done_iff_reaches {name : String} (hname : r.contains name = true) :
    name ∈ done ↔ r.Reaches name := by
  obtain ⟨expr, hfind⟩ := Option.isSome_iff_exists.1 hname
  rw [h.mem_done_iff]
  constructor
  · intro hmem
    obtain ⟨entry, hentry, rfl⟩ := List.mem_map.1 (hmem.resolve_right List.not_mem_nil)
    exact (h.mem_entries_iff.1 hentry).1
  · intro hreached
    exact .inl (List.mem_map_of_mem (h.mem_entries_iff.2 ⟨hreached, hfind⟩))

theorem Search.not_contains_iff {entry : String × SubExpression} (hentry : entry ∈ r.named) :
    (!done.contains entry.1) = true ↔ ¬r.Reaches entry.1 := by
  rw [Bool.not_eq_true', ← Bool.not_eq_true, List.contains_iff_mem,
    h.mem_done_iff_reaches (contains_of_find? (find?_eq_some_iff.2 hentry))]

/-- The definitions that are not done are those that the root does not reach. -/
theorem Search.mem_unused_iff (name : String) :
    name ∈ (r.named.filter fun entry => !done.contains entry.1).map (·.1) ↔
      name ∈ r.names ∧ ¬r.Reaches name := by
  constructor
  · intro hmem
    obtain ⟨entry, hentry, rfl⟩ := List.mem_map.1 hmem
    obtain ⟨hnamed, hnew⟩ := List.mem_filter.1 hentry
    exact ⟨List.mem_map_of_mem hnamed, (h.not_contains_iff hnamed).1 hnew⟩
  · rintro ⟨hmem, hunreached⟩
    obtain ⟨entry, hnamed, rfl⟩ := List.mem_map.1 hmem
    have hnew := (h.not_contains_iff hnamed).2 hunreached
    exact List.mem_map_of_mem (List.mem_filter.2 ⟨hnamed, hnew⟩)

/-- A cycle of references has a recursive reference, which closes a cycle. -/
theorem Search.recursive_ne_nil_iff :
    log.filterMap Encounter.recursive? ≠ [] ↔ ∃ name, TransGen r.Refers name name := by
  have hcycles := h.exists_refers .root fun _ hmem => (firstMentions _).mem hmem
  constructor
  · intro hne
    obtain ⟨site, hsite⟩ := List.exists_mem_of_ne_nil _ hne
    obtain ⟨-, name, -, hrefers, hback⟩ := hcycles site hsite
    exact ⟨name, .head' hrefers hback⟩
  · rintro ⟨name, hcycle⟩ hnil
    have hremaining : ∀ a b, r.Refers a b →
        r.Remaining (log.filterMap Encounter.recursive?) a b := by
      intro a b hrefers
      exact ⟨hrefers, by simp [hnil]⟩
    exact h.not_transGen_remaining name (TransGen.mono hremaining _ _ hcycle)

end Root

/-- The warnings about definitions that were not visited. -/
def warnings (r : Registry) (done : List String) : Diagnostics :=
  (r.named.filter fun entry => !done.contains entry.1).map unusedWarning

theorem kind_of_mem_warnings {d : Diagnostic} (hd : d ∈ r.warnings done) :
    d.kind = .unusedSubExpression := by
  obtain ⟨entry, -, rfl⟩ := List.mem_map.1 hd
  rfl

section Resolve

variable (h : r.Search [] r.root (firstOccurrences [] r.root.body.refs) [] log done)
  (hvisits : r.visits t = ⟨done, undeclared t r.root ++ log.flatMap (·.reports t)⟩)

include hvisits

theorem diagnostics_resolve : (r.resolve t).diagnostics =
    undeclared t r.root ++ log.flatMap (·.reports t) ++ r.warnings done := by
  rw [resolve, hvisits]
  rfl

/-- The errors of one kind. -/
theorem ofKind_resolve {kind : DiagnosticKind} (hkind : kind ≠ .unusedSubExpression) :
    Diagnostics.ofKind (r.resolve t).diagnostics kind =
      Diagnostics.ofKind (undeclared t r.root) kind ++
        Diagnostics.ofKind (log.flatMap (·.reports t)) kind := by
  have hnone : Diagnostics.ofKind (r.warnings done) kind = [] := by
    refine List.filter_eq_nil_iff.2 fun d hd => ?_
    rw [kind_of_mem_warnings hd]
    simpa using Ne.symm hkind
  rw [diagnostics_resolve hvisits, Diagnostics.ofKind_append, Diagnostics.ofKind_append, hnone,
    List.append_nil]

theorem ofKind_resolve_unused : Diagnostics.ofKind (r.resolve t).diagnostics .unusedSubExpression =
    r.warnings done := by
  have hnone : Diagnostics.ofKind (log.flatMap (·.reports t)) .unusedSubExpression = [] := by
    refine List.filter_eq_nil_iff.2 fun d hd hkind => ?_
    have hmem := kind_mem_of_mem_flatMap hd
    simp [of_decide_eq_true hkind] at hmem
  have hall : Diagnostics.ofKind (r.warnings done) .unusedSubExpression = r.warnings done :=
    List.filter_eq_self.2 fun d hd => by simpa using kind_of_mem_warnings hd
  rw [diagnostics_resolve hvisits, Diagnostics.ofKind_append, Diagnostics.ofKind_append, hnone,
    hall, ofKind_undeclared, if_neg (by decide)]
  rfl

theorem unused_resolve : (r.resolve t).unused =
    (r.named.filter fun entry => !done.contains entry.1).map (·.1) := by
  rw [resolve, hvisits]

include h

/-- A resolution reports the problems of what the root reaches, and what it does not reach. -/
theorem exact_resolve :
    r.Exact t (r.resolve t) (entries log) (log.filterMap Encounter.recursive?) where
  visited_nodup := h.fresh.1
  mem_visited_iff _ _ := h.mem_entries_iff
  undefinedIdentifier := by
    rw [ofKind_resolve hvisits (by decide), ofKind_undeclared, if_pos rfl,
      ofKind_undefinedIdentifier, List.flatMap_cons, List.flatMap_map]
    rfl
  undefinedSubExpression := by
    refine ⟨fun expr => firstOccurrences [] expr.body.refs, fun expr => firstMentions _, ?_⟩
    have hmet := h.perm_undefined.map fun site =>
      Visits.problem .undefinedSubExpression site.1 site.2
    rw [List.map_append, List.map_flatMap, unresolved, List.map_map] at hmet
    simp only [unresolved, List.map_map] at hmet
    rw [ofKind_resolve hvisits (by decide), ofKind_undeclared, if_neg (by decide),
      ofKind_undefinedSubExpression, List.flatMap_cons, List.flatMap_map]
    exact hmet
  recursiveSubExpression := by
    rw [ofKind_resolve hvisits (by decide), ofKind_undeclared, if_neg (by decide),
      ofKind_recursiveSubExpression, List.nil_append]
  on_cycle := h.exists_refers .root fun _ hmem => (firstMentions _).mem hmem
  acyclic := h.not_transGen_remaining
  back_ne_nil_iff := h.recursive_ne_nil_iff
  unused_sublist := by
    rw [unused_resolve hvisits]
    exact List.filter_sublist.map _
  mem_unused_iff name := by rw [unused_resolve hvisits, h.mem_unused_iff]
  unusedSubExpression := by
    rw [ofKind_resolve_unused hvisits, unused_resolve hvisits, warnings]
    congr 1
    refine List.filter_congr fun entry hentry => ?_
    have hname : entry.1 ∈ r.names := List.mem_map_of_mem hentry
    rw [Bool.eq_iff_iff, List.contains_iff_mem, h.mem_unused_iff, h.not_contains_iff hentry,
      and_iff_right hname]
  kind_mem d hd := by
    rw [diagnostics_resolve hvisits, List.mem_append, List.mem_append] at hd
    rcases hd with (hd | hd) | hd
    · simp [kind_of_mem_undeclared hd]
    · exact List.mem_append_left [.unusedSubExpression] (kind_mem_of_mem_flatMap hd)
    · simp [kind_of_mem_warnings hd]

end Resolve

/-- A resolution is a search that ends, and it reports the problems of the graph that the root
reaches: each literal without an action, each undefined name once for each body, references on
cycles without which there would be none, and the definitions that are not reached. -/
theorem resolve_exact (r : Registry) (t : ActionTable) : ∃ log done visited back,
    r.Search [] r.root (firstOccurrences [] r.root.body.refs) [] log done ∧
    r.visits t = ⟨done, undeclared t r.root ++ log.flatMap (·.reports t)⟩ ∧
    r.Exact t (r.resolve t) visited back := by
  obtain ⟨log, done, hsearch, hvisits⟩ := exists_search r t
  exact ⟨log, done, _, _, hsearch, hvisits, exact_resolve hsearch hvisits⟩

/-- The grammar `<a> <b> <b> <c> nope` where `<a>` and `<b>` lead to each other and to `<shared>`,
no `<c>` is defined, and `<alone>` is used by itself only. -/
def tangled : Registry where
  root := .unplaced .root <| .concat [.ref ⟨"a", .unplaced⟩, .ref ⟨"b", .unplaced⟩,
    .ref ⟨"b", .unplaced⟩, .ref ⟨"c", .unplaced⟩, .literal ⟨"nope", .unplaced⟩]
  named := [
    ("alone", .unplaced (.named "alone" false) (.ref ⟨"alone", .unplaced⟩)),
    ("a", .unplaced (.named "a" false) (.concat
      [.ref ⟨"b", .unplaced⟩, .ref ⟨"shared", .unplaced⟩])),
    ("b", .unplaced (.named "b" false) (.concat
      [.ref ⟨"shared", .unplaced⟩, .ref ⟨"a", .unplaced⟩])),
    ("shared", .unplaced (.named "shared" false) (.literal ⟨"x", .unplaced⟩))]
  root_role := rfl
  names_agree := by simp [SubExpression.name, SubExpression.unplaced]
  names_nodup := by decide

example : (tangled.resolve oneAction).unused = ["alone"] ∧
    (tangled.resolve oneAction).diagnostics.map (fun d => (d.kind, d.detail)) =
      [(.undefinedIdentifier, some "nope"), (.recursiveSubExpression, some "a"),
        (.undefinedSubExpression, some "c"), (.unusedSubExpression, some "alone")] := by
  decide

end Registry
end CallChain
