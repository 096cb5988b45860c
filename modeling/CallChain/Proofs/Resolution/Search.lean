import CallChain.Proofs.Visits

/-!
# What a resolution visits

A resolution is a depth-first search for bodies. `Registry.Search` is such a search without a bound
on its depth, with what it meets on the way; the bound of `Registry.visit` never ends one, as a path
repeats no name (`exists_search`).

* `firstMentions`: the first occurrences of names.
* `exists_search`: a resolution is a search.
* `Search.mem_entries_iff`: what a search from the root visits is what the root reaches.
* `Search.perm_undefined`: the undefined names that a search meets.
-/

namespace CallChain

/-! ### First mentions -/

/-- The first of the names with each text. -/
structure FirstMentions (names firsts : List Name) : Prop where
  nodup : (firsts.map (·.text)).Nodup
  mem_iff : ∀ name, name ∈ firsts ↔ names.find? (·.text = name.text) = some name

theorem mem_firstOccurrences {seen : List String} {names : List Name} {name : Name} :
    name ∈ firstOccurrences seen names ↔
      name.text ∉ seen ∧ names.find? (·.text = name.text) = some name := by
  induction names generalizing seen with
  | nil => simp [firstOccurrences]
  | cons first names ih =>
    rw [firstOccurrences, List.find?_cons]
    by_cases hseen : first.text ∈ seen
    · rw [if_pos (by simpa using hseen), ih]
      refine and_congr_right fun hname => ?_
      have hne : first.text ≠ name.text := fun heq => hname (heq ▸ hseen)
      simp [hne]
    · rw [if_neg (by simpa using hseen), List.mem_cons, ih]
      by_cases heq : first.text = name.text
      · have hname : name.text ∉ seen := heq ▸ hseen
        simp [heq, hname, eq_comm]
      · have hne : name ≠ first := fun h => heq (h ▸ rfl)
        simp [heq, hne, Ne.symm heq]

theorem nodup_text_firstOccurrences (seen : List String) (names : List Name) :
    ((firstOccurrences seen names).map (·.text)).Nodup := by
  induction names generalizing seen with
  | nil => exact List.nodup_nil
  | cons name names ih =>
    rw [firstOccurrences]
    split
    · exact ih seen
    · rw [List.map_cons, List.nodup_cons]
      refine ⟨fun hmem => ?_, ih _⟩
      obtain ⟨other, hother, heq⟩ := List.mem_map.1 hmem
      exact (mem_firstOccurrences.1 hother).1 (heq ▸ List.mem_cons_self)

theorem firstMentions (names : List Name) : FirstMentions names (firstOccurrences [] names) where
  nodup := nodup_text_firstOccurrences [] names
  mem_iff name := by simp [mem_firstOccurrences]

theorem FirstMentions.mem {names firsts : List Name} (h : FirstMentions names firsts)
    {name : Name} (hname : name ∈ firsts) : name ∈ names :=
  List.mem_of_find?_eq_some ((h.mem_iff name).1 hname)

/-- A name has a first mention. -/
theorem FirstMentions.exists_mem {names firsts : List Name} (h : FirstMentions names firsts)
    {name : Name} (hname : name ∈ names) : ∃ first ∈ firsts, first.text = name.text := by
  have hfound : (names.find? (·.text = name.text)).isSome = true := by
    rw [List.find?_isSome]
    exact ⟨name, hname, by simp⟩
  obtain ⟨first, hfirst⟩ := Option.isSome_iff_exists.1 hfound
  have htext : first.text = name.text := by simpa using List.find?_some hfirst
  refine ⟨first, (h.mem_iff first).2 ?_, htext⟩
  rw [htext, hfirst]

/-! ### Searches -/

/-- What a search for bodies meets: a definition for the first time, or a reference of a body to
what is not defined or to a body that waits for this one. -/
inductive Encounter where
  | entered (name : String) (expr : SubExpression)
  | undefined (expr : SubExpression) (name : Name)
  | recursive (expr : SubExpression) (name : Name)

namespace Encounter

/-- What a resolution reports about it. -/
def reports (t : ActionTable) : Encounter → Diagnostics
  | entered _ expr => Registry.undeclared t expr
  | undefined expr name => [Visits.problem .undefinedSubExpression expr name]
  | recursive expr name => [Visits.problem .recursiveSubExpression expr name]

def entered? : Encounter → Option (String × SubExpression)
  | entered name expr => some (name, expr)
  | _ => none

def undefined? : Encounter → Option (SubExpression × Name)
  | undefined expr name => some (expr, name)
  | _ => none

def recursive? : Encounter → Option (SubExpression × Name)
  | recursive expr name => some (expr, name)
  | _ => none

end Encounter

/-- The definitions that are visited. -/
def entries (log : List Encounter) : List (String × SubExpression) :=
  log.filterMap Encounter.entered?

namespace Registry

variable (r : Registry)

/-- A depth-first search that follows some references of a body, where `path` holds the names of the
bodies that wait. It starts and ends with the names of bodies that are done. -/
inductive Search : List String → SubExpression → List Name → List String → List Encounter →
    List String → Prop where
  | nil {path : List String} {expr : SubExpression} {done : List String} :
      Search path expr [] done [] done
  | undefined {path : List String} {expr : SubExpression} {name : Name} {names : List Name}
      {done done' : List String} {log : List Encounter} (hname : r.find? name.text = none)
      (rest : Search path expr names done log done') :
      Search path expr (name :: names) done (.undefined expr name :: log) done'
  | recursive {path : List String} {expr : SubExpression} {name : Name} {names : List Name}
      {done done' : List String} {log : List Encounter} (hname : r.contains name.text = true)
      (hpath : name.text ∈ path) (rest : Search path expr names done log done') :
      Search path expr (name :: names) done (.recursive expr name :: log) done'
  | known {path : List String} {expr : SubExpression} {name : Name} {names : List Name}
      {done done' : List String} {log : List Encounter} (hname : r.contains name.text = true)
      (hpath : name.text ∉ path) (hdone : name.text ∈ done)
      (rest : Search path expr names done log done') :
      Search path expr (name :: names) done log done'
  | descend {path : List String} {expr target : SubExpression} {name : Name} {names : List Name}
      {done inner done' : List String} {below log : List Encounter}
      (hname : r.find? name.text = some target) (hpath : name.text ∉ path)
      (hdone : name.text ∉ done)
      (body : Search (name.text :: path) target (firstOccurrences [] target.body.refs) done below
        inner)
      (rest : Search path expr names (name.text :: inner) log done') :
      Search path expr (name :: names) done (.entered name.text target :: (below ++ log)) done'

variable {r} {t : ActionTable} {expr : SubExpression} {path done done' : List String}
  {names : List Name} {log : List Encounter} {reports : Diagnostics}

theorem contains_of_find? {name : String} (h : r.find? name = some expr) :
    r.contains name = true := by
  rw [contains, h]
  rfl

theorem contains_eq_false {name : String} (h : r.find? name = none) : r.contains name = false := by
  rw [contains, h]
  rfl

/-! ### A resolution is a search -/

section Exists

variable {visit : SubExpression → List String → Visits → Visits} {depth : Nat}

variable (r t visit) in
/-- Visits are searches of the bodies for which the path has less than `depth` places left. -/
def Searches (depth : Nat) : Prop :=
  ∀ expr path done reports, r.Stage path [] → r.size < path.length + depth → ∃ log done',
    r.Search path expr (firstOccurrences [] expr.body.refs) done log done' ∧
      visit expr path ⟨done, reports⟩ =
        ⟨done', (reports ++ undeclared t expr) ++ log.flatMap (·.reports t)⟩

theorem exists_search_foldl (hvisit : r.Searches t visit depth) (hstage : r.Stage path [])
    (hdepth : r.size < path.length + 1 + depth) (names : List Name) (done : List String)
    (reports : Diagnostics) : ∃ log done', r.Search path expr names done log done' ∧
      names.foldl (r.follow expr path visit) ⟨done, reports⟩ =
        ⟨done', reports ++ log.flatMap (·.reports t)⟩ := by
  induction names generalizing done reports with
  | nil => exact ⟨[], done, .nil, by simp⟩
  | cons name names ih =>
    rw [List.foldl_cons]
    cases hname : r.find? name.text with
    | none =>
      obtain ⟨log, done', hsearch, hfold⟩ :=
        ih done (reports ++ [Visits.problem .undefinedSubExpression expr name])
      refine ⟨_, _, .undefined hname hsearch, ?_⟩
      simpa [follow, hname, Visits.report, Encounter.reports] using hfold
    | some target =>
      have hdefined := contains_of_find? hname
      by_cases hpath : name.text ∈ path
      · obtain ⟨log, done', hsearch, hfold⟩ :=
          ih done (reports ++ [Visits.problem .recursiveSubExpression expr name])
        refine ⟨_, _, .recursive hdefined hpath hsearch, ?_⟩
        simpa [follow, hname, hpath, Visits.report, Encounter.reports] using hfold
      by_cases hdone : name.text ∈ done
      · obtain ⟨log, done', hsearch, hfold⟩ := ih done reports
        refine ⟨_, _, .known hdefined hpath hdone hsearch, ?_⟩
        simpa [follow, hname, hpath, hdone] using hfold
      · have hbelow := hstage.below hdefined hpath List.not_mem_nil
        obtain ⟨below, inner, hbody, hinner⟩ :=
          hvisit target (name.text :: path) done reports hbelow
          (by rw [List.length_cons]; omega)
        obtain ⟨log, done', hsearch, hfold⟩ := ih (name.text :: inner)
          (reports ++ undeclared t target ++ below.flatMap (·.reports t))
        refine ⟨_, _, .descend hname hpath hdone hbody hsearch, ?_⟩
        simpa [follow, hname, hpath, hdone, hinner, Encounter.reports] using hfold

theorem searches_visit (depth : Nat) : r.Searches t (r.visit t depth) (depth + 1) := by
  induction depth with
  | zero =>
    intro expr path done reports hstage hdepth
    have hnone : r.Searches t (fun _ _ v => v) 0 := by
      -- No name is left for a longer path.
      intro _ path _ _ hstage hdepth
      have hlength := hstage.length_le
      omega
    exact exists_search_foldl hnone hstage (by omega) _ _ _
  | succ depth ih =>
    intro expr path done reports hstage hdepth
    exact exists_search_foldl ih hstage (by omega) _ _ _

end Exists

/-- A resolution is a search from the root. -/
theorem exists_search (r : Registry) (t : ActionTable) : ∃ log done,
    r.Search [] r.root (firstOccurrences [] r.root.body.refs) [] log done ∧
      r.visits t = ⟨done, undeclared t r.root ++ log.flatMap (·.reports t)⟩ := by
  have hdepth : r.size < ([] : List String).length + (r.size + 1) := by
    rw [List.length_nil]
    omega
  obtain ⟨log, done, hsearch, hvisit⟩ :=
    searches_visit (t := t) r.size r.root [] [] [] .start hdepth
  exact ⟨log, done, hsearch, hvisit⟩

/-! ### What is visited -/

section Entries

variable {name : String} {ref : Name} {log' : List Encounter}

@[simp] theorem entries_nil : entries [] = [] := rfl

@[simp] theorem entries_entered :
    entries (.entered name expr :: log) = (name, expr) :: entries log := rfl

@[simp] theorem entries_undefined : entries (.undefined expr ref :: log) = entries log := rfl

@[simp] theorem entries_recursive : entries (.recursive expr ref :: log) = entries log := rfl

@[simp] theorem entries_append : entries (log ++ log') = entries log ++ entries log' :=
  List.filterMap_append

end Entries

namespace Search

variable {name : String}

theorem find?_of_mem (h : r.Search path expr names done log done') :
    ∀ entry ∈ entries log, r.find? entry.1 = some entry.2 := by
  induction h with
  | nil => simp
  | undefined _ _ ih => exact ih
  | recursive _ _ _ ih => exact ih
  | known _ _ _ _ ih => exact ih
  | descend hname _ _ _ _ ihbody ihrest =>
    simp only [entries_entered, entries_append, List.forall_mem_cons, List.forall_mem_append]
    exact ⟨hname, ihbody, ihrest⟩

/-- What is done is what was done before and what was visited. -/
theorem perm_done (h : r.Search path expr names done log done') :
    done'.Perm ((entries log).map (·.1) ++ done) := by
  induction h with
  | nil => exact .refl _
  | undefined _ _ ih => exact ih
  | recursive _ _ _ ih => exact ih
  | known _ _ _ _ ih => exact ih
  | @descend path expr target name names done inner done' below log _ _ _ _ _ ihbody ihrest =>
    rw [entries_entered, entries_append, List.map_cons, List.map_append, List.cons_append]
    refine ihrest.trans (List.perm_middle.trans (.cons _ ?_))
    refine (ihbody.append_left _).trans ?_
    rw [← List.append_assoc]
    exact List.perm_append_comm.append_right done

theorem mem_done_iff (h : r.Search path expr names done log done') :
    name ∈ done' ↔ name ∈ (entries log).map (·.1) ∨ name ∈ done := by
  rw [h.perm_done.mem_iff, List.mem_append]

theorem subset_done (h : r.Search path expr names done log done') : done ⊆ done' :=
  fun _ hname => h.mem_done_iff.2 (.inr hname)

/-- No body is visited twice, or while it waits. -/
theorem fresh (h : r.Search path expr names done log done') :
    ((entries log).map (·.1)).Nodup ∧
      ∀ name ∈ (entries log).map (·.1), name ∉ path ∧ name ∉ done := by
  induction h with
  | nil => simp
  | undefined _ _ ih => exact ih
  | recursive _ _ _ ih => exact ih
  | known _ _ _ _ ih => exact ih
  | @descend path expr target ref names done inner done' below log hname hpath hdone hbody hrest
      ihbody ihrest =>
    obtain ⟨hbelow, hnew⟩ := ihbody
    obtain ⟨hlater, hlast⟩ := ihrest
    have hself : ref.text ∉ (entries below).map (·.1) := fun hmem =>
      (hnew _ hmem).1 List.mem_cons_self
    have hinner : ∀ name ∈ (entries below).map (·.1), name ∈ ref.text :: inner := fun name hmem =>
      List.mem_cons_of_mem _ (hbody.mem_done_iff.2 (.inl hmem))
    simp only [entries_entered, entries_append, List.map_cons, List.map_append, List.nodup_cons,
      List.nodup_append, List.mem_append, not_or, List.forall_mem_cons]
    refine ⟨⟨⟨hself, fun hmem => (hlast _ hmem).2 List.mem_cons_self⟩, hbelow, hlater, ?_⟩,
      ⟨hpath, hdone⟩, ?_⟩
    · rintro name hmem _ hmem' rfl
      exact (hlast name hmem').2 (hinner name hmem)
    rintro name (hmem | hmem)
    · exact ⟨fun h => (hnew name hmem).1 (List.mem_cons_of_mem _ h), (hnew name hmem).2⟩
    · refine ⟨(hlast name hmem).1, fun h => (hlast name hmem).2 ?_⟩
      exact List.mem_cons_of_mem _ (hbody.subset_done h)

theorem nodup_done (h : r.Search path expr names done log done') (hdone : done.Nodup) :
    done'.Nodup := by
  obtain ⟨hnodup, hfresh⟩ := h.fresh
  refine h.perm_done.nodup_iff.2 (hnodup.append hdone fun name hmem => ?_)
  exact (hfresh name hmem).2

/-- A reference that was followed to a definition leads to a body that waits or is done. -/
theorem mem_path_or_done (h : r.Search path expr names done log done') :
    ∀ name ∈ names, r.contains name.text = true → name.text ∈ path ∨ name.text ∈ done' := by
  induction h with
  | nil => simp
  | undefined hname _ ih =>
    rw [List.forall_mem_cons, contains_eq_false hname]
    exact ⟨fun hdefined => absurd hdefined Bool.false_ne_true, ih⟩
  | recursive _ hpath _ ih => exact List.forall_mem_cons.2 ⟨fun _ => .inl hpath, ih⟩
  | known _ _ hdone hrest ih =>
    exact List.forall_mem_cons.2 ⟨fun _ => .inr (hrest.subset_done hdone), ih⟩
  | descend _ _ _ _ hrest _ ih =>
    exact List.forall_mem_cons.2 ⟨fun _ => .inr (hrest.subset_done List.mem_cons_self), ih⟩

theorem mem_path_or_done_of_refs
    (h : r.Search path expr (firstOccurrences [] expr.body.refs) done log done')
    {ref : Name} (href : ref ∈ expr.body.refs) (hdefined : r.contains ref.text = true) :
    ref.text ∈ path ∨ ref.text ∈ done' := by
  obtain ⟨first, hfirst, htext⟩ := (firstMentions expr.body.refs).exists_mem href
  rw [← htext] at hdefined ⊢
  exact h.mem_path_or_done first hfirst hdefined

/-- What a body that is visited refers to waits or is done. -/
theorem closed (h : r.Search path expr names done log done') :
    ∀ entry ∈ entries log, ∀ ref ∈ entry.2.body.refs, r.contains ref.text = true →
      ref.text ∈ path ∨ ref.text ∈ done' := by
  induction h with
  | nil => simp
  | undefined _ _ ih => exact ih
  | recursive _ _ _ ih => exact ih
  | known _ _ _ _ ih => exact ih
  | @descend path expr target name names done inner done' below log _ _ _ hbody hrest ihbody
      ihrest =>
    -- what waited for the body or was done behind it waits for this one or is done
    have hlater {other : String} (h : other ∈ name.text :: path ∨ other ∈ inner) :
        other ∈ path ∨ other ∈ done' := by
      rcases h with h | h
      · rcases List.mem_cons.1 h with rfl | h
        · exact .inr (hrest.subset_done List.mem_cons_self)
        · exact .inl h
      · exact .inr (hrest.subset_done (List.mem_cons_of_mem _ h))
    simp only [entries_entered, entries_append, List.forall_mem_cons, List.forall_mem_append]
    refine ⟨fun ref href hdefined => ?_, fun entry hentry ref href hdefined => ?_, ihrest⟩
    · exact hlater (hbody.mem_path_or_done_of_refs href hdefined)
    · exact hlater (ihbody entry hentry ref href hdefined)

theorem reaches_of_mem (h : r.Search path expr names done log done')
    (hnames : ∀ name ∈ names, r.Reaches name.text) :
    ∀ entry ∈ entries log, r.Reaches entry.1 := by
  induction h with
  | nil => simp
  | undefined _ _ ih => exact ih (List.forall_mem_cons.1 hnames).2
  | recursive _ _ _ ih => exact ih (List.forall_mem_cons.1 hnames).2
  | known _ _ _ _ ih => exact ih (List.forall_mem_cons.1 hnames).2
  | @descend path expr target name names _ _ _ _ _ hname _ _ _ _ ihbody ihrest =>
    obtain ⟨hreached, hnames⟩ := List.forall_mem_cons.1 hnames
    have hbelow : ∀ ref ∈ firstOccurrences [] target.body.refs, r.Reaches ref.text :=
      fun ref href => .step hreached hname ((firstMentions _).mem href)
    simp only [entries_entered, entries_append, List.forall_mem_cons, List.forall_mem_append]
    exact ⟨hreached, ihbody hbelow, ihrest hnames⟩

variable (h : r.Search [] r.root (firstOccurrences [] r.root.body.refs) [] log done)

include h

/-- What a search from the root visits is what the root reaches. -/
theorem mem_entries_iff : (name, expr) ∈ entries log ↔
    r.Reaches name ∧ r.find? name = some expr := by
  constructor
  · intro hmem
    have hroot : ∀ ref ∈ firstOccurrences [] r.root.body.refs, r.Reaches ref.text :=
      fun ref href => .root ((firstMentions _).mem href)
    exact ⟨h.reaches_of_mem hroot _ hmem, h.find?_of_mem _ hmem⟩
  · rintro ⟨hreached, hfind⟩
    have hentry {name : String} {expr : SubExpression} (hfind : r.find? name = some expr)
        (hseen : name ∈ ([] : List String) ∨ name ∈ done) : (name, expr) ∈ entries log := by
      have hdone := hseen.resolve_left List.not_mem_nil
      obtain ⟨⟨_, expr'⟩, hmem, rfl⟩ :=
        List.mem_map.1 ((h.mem_done_iff.1 hdone).resolve_right List.not_mem_nil)
      have hfind' := h.find?_of_mem _ hmem
      rw [hfind] at hfind'
      cases hfind'
      exact hmem
    induction hreached generalizing expr with
    | root href =>
      exact hentry hfind (h.mem_path_or_done_of_refs href (contains_of_find? hfind))
    | step hvia hs href ih =>
      exact hentry hfind (h.closed _ (ih hs) _ href (contains_of_find? hfind))

end Search

end Registry
end CallChain
