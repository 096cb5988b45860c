import CallChain.Proofs.Grammar.Derivation
import CallChain.Proofs.Resolution

/-!
# Where a resolution reports

A visit reports about names of the body that it visits, and no body is visited twice: a name that is
followed is in the path until its visit ends, and done afterwards. So if each body has a source of
its own and the names of a body stand at different places, no two diagnostics of a resolution start
at the same place (`nodup_place_resolve`).

* `separates_follow`: one reference.
* `separating_visit`: a body.
* `about_of_mem`: what the diagnostics of a resolution are about.
-/

namespace CallChain

/-- Where a diagnostic starts. -/
def Diagnostic.place (d : Diagnostic) : SourceId × Nat := (d.source, d.span.start)

theorem firstOccurrences_sublist (seen : List String) (names : List Name) :
    (firstOccurrences seen names).Sublist names := by
  induction names generalizing seen with
  | nil => exact .slnil
  | cons name names ih =>
    rw [firstOccurrences]
    split
    · exact (ih seen).cons name
    · exact (ih _).cons_cons name

/-- A diagnostic is an error about a name of a body. -/
def IsProblem (expr : SubExpression) (d : Diagnostic) : Prop :=
  ∃ kind name, kind.severity = .error ∧ name ∈ expr.body.names ∧
    d = Visits.problem kind expr name

theorem IsProblem.source_eq {expr : SubExpression} {d : Diagnostic} (h : IsProblem expr d) :
    d.source = expr.source := by
  obtain ⟨kind, name, -, -, rfl⟩ := h
  rfl

namespace Registry

variable (r : Registry)

/-- The names of each body stand at different places. -/
def DistinctNames : Prop := ∀ expr ∈ r.bodies, (expr.body.names.map (·.span.start)).Nodup

/-- The reports start at different places, and each is about a name of a body that is done or on the
path. -/
structure Separate (path : List String) (v : Visits) : Prop where
  nodup : (v.reports.map Diagnostic.place).Nodup
  about : ∀ d ∈ v.reports, ∃ expr ∈ r.bodies,
    (∀ n, expr.name = some n → n ∈ v.done ∨ n ∈ path) ∧ IsProblem expr d

/-- A part of the visit of a body: what it adds is about the body, at one of some places, or about
bodies that are not on the path. -/
structure Separates (path : List String) (expr : SubExpression) (places : List Nat)
    (v v' : Visits) : Prop extends r.Separate path v' where
  done : v.done ⊆ v'.done
  new : ∀ d ∈ v'.reports, d ∈ v.reports ∨
    d.source = expr.source ∧ d.span.start ∈ places ∨
      ∃ other ∈ r.bodies, d.source = other.source ∧ ∃ n, other.name = some n ∧ n ∉ path

/-- A visit of a body that has not been visited keeps the reports separate. -/
def Separating (visit : SubExpression → List String → Visits → Visits) : Prop :=
  ∀ expr ∈ r.bodies, ∀ path v, (∀ n, expr.name = some n → n ∈ path) → r.Separate path v →
    (∀ d ∈ v.reports, d.source ≠ expr.source) →
      r.Separates path expr (expr.body.names.map (·.span.start)) v (visit expr path v)

variable {r} {t : ActionTable} {expr : SubExpression} {path : List String} {v v' v'' : Visits}
  {places places' : List Nat} {name : Name}

theorem Separate.refl (h : r.Separate path v) : r.Separates path expr places v v where
  toSeparate := h
  done := List.Subset.refl _
  new _ hd := .inl hd

theorem Separates.trans (h : r.Separates path expr places v v')
    (h' : r.Separates path expr places' v' v'') :
    r.Separates path expr (places ++ places') v v'' where
  toSeparate := h'.toSeparate
  done := List.Subset.trans h.done h'.done
  new d hd := by
    rcases h'.new d hd with hd | ⟨hsource, hplace⟩ | hother
    · rcases h.new d hd with hd | ⟨hsource, hplace⟩ | hother
      · exact .inl hd
      · exact .inr (.inl ⟨hsource, List.mem_append_left _ hplace⟩)
      · exact .inr (.inr hother)
    · exact .inr (.inl ⟨hsource, List.mem_append_right _ hplace⟩)
    · exact .inr (.inr hother)

theorem Separates.mono (h : r.Separates path expr places v v') (hsubset : places ⊆ places') :
    r.Separates path expr places' v v' where
  toSeparate := h.toSeparate
  done := h.done
  new d hd := by
    rcases h.new d hd with hd | ⟨hsource, hplace⟩ | hother
    · exact .inl hd
    · exact .inr (.inl ⟨hsource, hsubset hplace⟩)
    · exact .inr (.inr hother)

section Bodies

variable (hsources : r.DistinctSources) (hexpr : expr ∈ r.bodies)
  (hpath : ∀ n, expr.name = some n → n ∈ path)

include hsources hexpr hpath

/-- A body that is not on the path is not the one that is visited. -/
theorem source_ne_of_not_mem {other : SubExpression} (hother : other ∈ r.bodies) {n : String}
    (hname : other.name = some n) (hn : n ∉ path) : other.source ≠ expr.source := by
  intro heq
  have hsame := eq_of_source_eq hsources hother hexpr heq
  rw [hsame] at hname
  exact hn (hpath n hname)

omit hsources in
/-- Errors about names at different places where there was none. -/
theorem separates_append {ds : Diagnostics} (h : r.Separate path v)
    (hds : ∀ d ∈ ds, IsProblem expr d ∧ d.span.start ∈ places)
    (hnodup : (ds.map (·.span.start)).Nodup)
    (hfree : ∀ d ∈ v.reports, d.source = expr.source → d.span.start ∉ places) :
    r.Separates path expr places v ⟨v.done, v.reports ++ ds⟩ where
  nodup := by
    rw [List.map_append, List.nodup_append]
    refine ⟨h.nodup, List.Nodup.of_map Prod.snd (by rwa [List.map_map]), ?_⟩
    intro place hplace place' hplace' heq
    obtain ⟨d, hd, rfl⟩ := List.mem_map.1 hplace
    obtain ⟨d', hd', rfl⟩ := List.mem_map.1 hplace'
    obtain ⟨hsource, hstart⟩ := Prod.mk.inj heq
    obtain ⟨habout, hmem⟩ := hds d' hd'
    exact hfree d hd (hsource.trans habout.source_eq) (hstart ▸ hmem)
  about d hd := by
    rcases List.mem_append.1 hd with hd | hd
    · exact h.about d hd
    · exact ⟨expr, hexpr, fun n hn => .inr (hpath n hn), (hds d hd).1⟩
  done := List.Subset.refl _
  new d hd := by
    rcases List.mem_append.1 hd with hd | hd
    · exact .inl hd
    · exact .inr (.inl ⟨(hds d hd).1.source_eq, (hds d hd).2⟩)

omit hsources in
theorem separates_report {kind : DiagnosticKind} (hkind : kind.severity = .error)
    (h : r.Separate path v) (hname : name ∈ expr.body.names)
    (hfree : ∀ d ∈ v.reports, d.source = expr.source → d.span.start ≠ name.span.start) :
    r.Separates path expr [name.span.start] v (v.report (Visits.problem kind expr name)) := by
  apply separates_append hexpr hpath h
  · rw [List.forall_mem_singleton]
    exact ⟨⟨kind, name, hkind, hname, rfl⟩, List.mem_singleton_self _⟩
  · exact List.nodup_singleton _
  · intro d hd hsource hmem
    exact hfree d hd hsource (List.mem_singleton.1 hmem)

variable {visit : SubExpression → List String → Visits → Visits}

omit hexpr hpath in
/-- The target of a reference that is followed has not been visited. -/
theorem source_ne_of_fresh {target : SubExpression} (h : r.Separate path v)
    (htarget : r.find? name.text = some target) (hfresh : name.text ∉ path)
    (hnew : name.text ∉ v.done) : ∀ d ∈ v.reports, d.source ≠ target.source := by
  intro d hd heq
  obtain ⟨other, hother, hseen, habout⟩ := h.about d hd
  have hsame : other = target := eq_of_source_eq hsources hother (mem_bodies_of_find? htarget)
    (habout.source_eq.symm.trans heq)
  rw [hsame] at hseen
  exact (hseen _ (name_of_find? htarget)).elim hnew hfresh

/-- Following a reference reports about it, or about what it leads to. -/
theorem separates_follow (hvisit : r.Separating visit) (h : r.Separate path v)
    (hname : name ∈ expr.body.names)
    (hfree : ∀ d ∈ v.reports, d.source = expr.source → d.span.start ≠ name.span.start) :
    r.Separates path expr [name.span.start] v (r.follow expr path visit v name) := by
  unfold follow
  split
  · exact separates_report hexpr hpath rfl h hname hfree
  next target htarget =>
    split
    · exact separates_report hexpr hpath rfl h hname hfree
    next hfresh =>
      split
      · exact h.refl
      next hnew =>
        have hfresh : name.text ∉ path := by simpa using hfresh
        have hnew : name.text ∉ v.done := by simpa using hnew
        have htargetName := name_of_find? htarget
        have hinner := hvisit target (mem_bodies_of_find? htarget) (name.text :: path) v
          (fun n hn => by
            rw [htargetName, Option.some.injEq] at hn
            exact hn ▸ List.mem_cons_self)
          ⟨h.nodup, fun d hd => by
            obtain ⟨other, hother, hseen, habout⟩ := h.about d hd
            exact ⟨other, hother, fun n hn => (hseen n hn).imp_right (List.mem_cons_of_mem _),
              habout⟩⟩
          (source_ne_of_fresh hsources h htarget hfresh hnew)
        refine ⟨⟨hinner.nodup, fun d hd => ?_⟩, fun n hn => ?_, fun d hd => ?_⟩
        · -- what was on the path of the visit is done now
          obtain ⟨other, hother, hseen, habout⟩ := hinner.about d hd
          refine ⟨other, hother, fun n hn => ?_, habout⟩
          rcases hseen n hn with hdone | hmem
          · exact .inl (List.mem_cons_of_mem _ hdone)
          · rcases List.mem_cons.1 hmem with rfl | hmem
            · exact .inl List.mem_cons_self
            · exact .inr hmem
        · exact List.mem_cons_of_mem _ (hinner.done hn)
        · rcases hinner.new d hd with hd | ⟨hsource, -⟩ | ⟨other, hother, hsource, n, hn, hout⟩
          · exact .inl hd
          · exact .inr (.inr ⟨target, mem_bodies_of_find? htarget, hsource, _, htargetName,
              hfresh⟩)
          · exact .inr (.inr ⟨other, hother, hsource, n, hn, fun hmem =>
              hout (List.mem_cons_of_mem _ hmem)⟩)

/-- Following references at places where nothing is reported yet. -/
theorem separates_foldl_follow (hvisit : r.Separating visit) {names : List Name}
    (hnames : ∀ name ∈ names, name ∈ expr.body.names)
    (hnodup : (names.map (·.span.start)).Nodup) (h : r.Separate path v)
    (hfree : ∀ d ∈ v.reports, d.source = expr.source → d.span.start ∉ names.map (·.span.start)) :
    r.Separates path expr (names.map (·.span.start)) v
      (names.foldl (r.follow expr path visit) v) := by
  induction names generalizing v with
  | nil => exact h.refl
  | cons name names ih =>
    rw [List.map_cons, List.nodup_cons] at hnodup
    rw [List.forall_mem_cons] at hnames
    have hfollow := separates_follow hsources hexpr hpath hvisit h hnames.1 fun d hd hsource =>
      List.ne_of_not_mem_cons (hfree d hd hsource)
    refine hfollow.trans (ih hnames.2 hnodup.2 hfollow.toSeparate fun d hd hsource hmem => ?_)
    rcases hfollow.new d hd with hd | ⟨-, hplace⟩ | ⟨other, hother, hsame, n, hn, hout⟩
    · exact hfree d hd hsource (List.mem_cons_of_mem _ hmem)
    · rw [List.mem_singleton.1 hplace] at hmem
      exact hnodup.1 hmem
    · exact source_ne_of_not_mem hsources hexpr hpath hother hn hout (hsame.symm.trans hsource)

omit hsources in
/-- The literals of a body that name no action are reported at different places. -/
theorem separates_undeclared (h : r.Separate path v) (hnames : r.DistinctNames)
    (hfresh : ∀ d ∈ v.reports, d.source ≠ expr.source) :
    r.Separates path expr (expr.body.literals.map (·.span.start)) v
      ⟨v.done, v.reports ++ undeclared t expr⟩ := by
  apply separates_append hexpr hpath h
  · intro d hd
    obtain ⟨name, hname, rfl⟩ := List.mem_map.1 hd
    have hliteral : name ∈ expr.body.literals := List.mem_of_mem_filter hname
    exact ⟨⟨_, name, rfl, List.mem_append_left _ hliteral, rfl⟩, List.mem_map_of_mem hliteral⟩
  · have hliterals := (List.nodup_append.1 ((List.map_append ..) ▸ hnames expr hexpr)).1
    rw [undeclared, List.map_map]
    exact hliterals.sublist (List.filter_sublist.map _)
  · intro d hd hsource
    exact absurd hsource (hfresh d hd)

/-- One body of a visit. -/
theorem separates_visitWith (hvisit : r.Separating visit) (hnames : r.DistinctNames)
    (h : r.Separate path v) (hfresh : ∀ d ∈ v.reports, d.source ≠ expr.source) :
    r.Separates path expr (expr.body.names.map (·.span.start)) v
      (r.visitWith t visit expr path v) := by
  have hall := hnames expr hexpr
  rw [Regex.names, List.map_append] at hall
  obtain ⟨-, hrefs, hapart⟩ := List.nodup_append.1 hall
  have hundeclared := separates_undeclared (t := t) hexpr hpath h hnames hfresh
  have hsublist := firstOccurrences_sublist [] expr.body.refs
  have hfree : ∀ d ∈ v.reports ++ undeclared t expr, d.source = expr.source →
      d.span.start ∉ (firstOccurrences [] expr.body.refs).map (·.span.start) := by
    intro d hd hsource hmem
    rcases hundeclared.new d hd with hd | ⟨-, hplace⟩ | ⟨other, hother, hsame, n, hn, hout⟩
    · exact hfresh d hd hsource
    · exact hapart _ hplace _ ((hsublist.map _).subset hmem) rfl
    · exact source_ne_of_not_mem hsources hexpr hpath hother hn hout (hsame.symm.trans hsource)
  have hfollowed := separates_foldl_follow hsources hexpr hpath hvisit
    (fun name hname => List.mem_append_right _ (hsublist.subset hname))
    (hrefs.sublist (hsublist.map _)) hundeclared.toSeparate hfree
  refine (hundeclared.trans hfollowed).mono ?_
  rw [Regex.names, List.map_append, List.append_subset]
  exact ⟨List.subset_append_left _ _,
    List.Subset.trans (hsublist.map _).subset (List.subset_append_right _ _)⟩

end Bodies

theorem separating_visit (hsources : r.DistinctSources) (hnames : r.DistinctNames) (depth : Nat) :
    r.Separating (r.visit t depth) := by
  induction depth with
  | zero =>
    intro expr hexpr path v hpath h hfresh
    exact separates_visitWith hsources hexpr hpath (fun _ _ _ _ _ h _ => h.refl) hnames h hfresh
  | succ depth ih =>
    intro expr hexpr path v hpath h hfresh
    exact separates_visitWith hsources hexpr hpath ih hnames h hfresh

theorem separate_visits (hsources : r.DistinctSources) (hnames : r.DistinctNames) :
    r.Separate [] (r.visits t) := by
  have hroot : ∀ n, r.root.name = some n → n ∈ ([] : List String) := by
    intro n hn
    rw [name_root] at hn
    cases hn
  exact (separating_visit hsources hnames r.size r.root List.mem_cons_self [] ⟨[], []⟩ hroot
    ⟨List.nodup_nil, fun _ hd => nomatch hd⟩ (fun _ hd => nomatch hd)).toSeparate

/-! ### Diagnostics of a resolution -/

/-- A diagnostic of a resolution is about a name of a body, or about a definition. -/
theorem about_of_mem (hsources : r.DistinctSources) (hnames : r.DistinctNames) {d : Diagnostic}
    (hd : d ∈ (r.resolve t).diagnostics) :
    (∃ expr ∈ r.bodies, IsProblem expr d) ∨ ∃ entry ∈ r.named, d = unusedWarning entry := by
  rcases List.mem_append.1 hd with hd | hd
  · obtain ⟨expr, hexpr, -, habout⟩ := (separate_visits hsources hnames).about d hd
    exact .inl ⟨expr, hexpr, habout⟩
  · obtain ⟨entry, hentry, rfl⟩ := List.mem_map.1 hd
    exact .inr ⟨entry, List.mem_of_mem_filter hentry, rfl⟩

/-- No two diagnostics of a resolution start at the same place. -/
theorem nodup_place_resolve (hsources : r.DistinctSources) (hnames : r.DistinctNames) :
    ((r.resolve t).diagnostics.map Diagnostic.place).Nodup := by
  have hvisits := separate_visits (t := t) hsources hnames
  rw [resolve]
  dsimp only
  rw [List.map_append, List.nodup_append]
  refine ⟨hvisits.nodup, ?_, ?_⟩
  · refine List.Nodup.of_map Prod.fst ?_
    rw [List.map_map, List.map_map]
    have hnamed : (r.named.map (·.2.source)).Nodup := by
      have hbodies : ((r.root :: r.named.map (·.2)).map (·.source)).Nodup := hsources
      rw [List.map_cons, List.nodup_cons, List.map_map] at hbodies
      exact hbodies.2
    exact hnamed.sublist (List.filter_sublist.map _)
  · intro place hplace place' hplace' heq
    obtain ⟨d, hd, rfl⟩ := List.mem_map.1 hplace
    obtain ⟨d', hd', rfl⟩ := List.mem_map.1 hplace'
    obtain ⟨entry, hentry, rfl⟩ := List.mem_map.1 hd'
    obtain ⟨hmem, hunused⟩ := List.mem_filter.1 hentry
    obtain ⟨expr, hexpr, hseen, habout⟩ := hvisits.about d hd
    -- a body that has been visited is done, so it is not an unused one
    have hbody : entry.2 ∈ r.bodies := List.mem_cons_of_mem _ (List.mem_map_of_mem hmem)
    have hsame : expr = entry.2 := eq_of_source_eq hsources hexpr hbody
      (habout.source_eq.symm.trans (Prod.mk.inj heq).1)
    have hdone := hseen entry.1 (hsame ▸ r.names_agree entry hmem)
    simp only [List.not_mem_nil, or_false] at hdone
    simp [hdone] at hunused

end Registry

end CallChain
