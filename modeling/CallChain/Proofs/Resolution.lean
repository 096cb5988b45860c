import CallChain.Proofs.Compile.Result
import CallChain.Resolution

/-!
# Resolving names agrees with compiling

A resolution visits bodies in the order in which a compilation scans them. As long as the scan meets
no problem, the visit reports none and has visited what the scan has met. The problem that ends the
scan is reported by the visit, which then goes on.

* `shows_visits`: what a visit shows of a scan.
* `isSyntaxError_eq_false_of_mem`, `resolve_of_scan`: what a resolution reports.
* `resolve_agrees`: a resolution finds an error if and only if a compilation fails, and the problem
  of the compilation is among the errors.
-/

namespace CallChain

/-! ### Problems and diagnostics -/

namespace CompileError

def kind : CompileError → DiagnosticKind
  | undefinedIdentifier _ _ => .undefinedIdentifier
  | undefinedSubExpression _ _ => .undefinedSubExpression
  | recursiveSubExpression _ => .recursiveSubExpression

def name : CompileError → String
  | undefinedIdentifier name _ => name
  | undefinedSubExpression name _ => name
  | recursiveSubExpression name => name

/-- The context, for the problems that have one. -/
def context? : CompileError → Option (Option String)
  | undefinedIdentifier _ context => some context
  | undefinedSubExpression _ context => some context
  | recursiveSubExpression _ => none

theorem severity_kind (e : CompileError) : e.kind.severity = .error := by
  cases e <;> rfl

end CompileError

/-- The reports of a later visit are those of an earlier one and diagnostics about names. -/
def Visits.Gains (v v' : Visits) : Prop :=
  Grown (fun d => d.kind.isSyntaxError = false) v.reports v'.reports

theorem Visits.gains_report (v : Visits) {d : Diagnostic} (hd : d.kind.isSyntaxError = false) :
    v.Gains (v.report d) :=
  .append (List.forall_mem_singleton.2 hd)

namespace Registry

variable (r : Registry)

/-- The root and the definitions. -/
def bodies : List SubExpression := r.root :: r.named.map (·.2)

/-- Each body is the text of a source of its own. -/
def DistinctSources : Prop := (r.bodies.map (·.source)).Nodup

instance : Decidable r.DistinctSources := by
  unfold DistinctSources
  infer_instance

/-- One of the reports is about the problem, in the body that the problem names. -/
def Reported (reports : Diagnostics) (e : CompileError) : Prop :=
  ∃ d ∈ reports, ∃ expr ∈ r.bodies, d.kind = e.kind ∧ d.detail = some e.name ∧
    d.source = expr.source ∧ ∀ context, e.context? = some context → context = expr.name

/-- What a visit that started with some reports shows of a scan: the names it has met and no further
report, or the problem. -/
def Shows (reports : Diagnostics) (v : Visits) : Except CompileError (List String) → Prop
  | .ok done => v = ⟨done, reports⟩
  | .error e => r.Reported v.reports e

/-- One body of a visit, given what visits the others. -/
def visitWith (t : ActionTable) (below : SubExpression → List String → Visits → Visits)
    (expr : SubExpression) (path : List String) (v : Visits) : Visits :=
  (firstOccurrences [] expr.body.refs).foldl (r.follow expr path below)
    ⟨v.done, v.reports ++ undeclared t expr⟩

variable {r} {t : ActionTable} {expr : SubExpression} {path done done' : List String}
  {reports : Diagnostics} {name : Name} {e : CompileError}

theorem mem_bodies_iff : expr ∈ r.bodies ↔ expr = r.root ∨ ∃ name, r.find? name = some expr := by
  simp [bodies, find?_eq_some_iff]

theorem mem_bodies_of_find? {name : String} (h : r.find? name = some expr) : expr ∈ r.bodies :=
  mem_bodies_iff.2 (.inr ⟨name, h⟩)

/-! ### Reports are kept -/

theorem Reported.mono {reports' : Diagnostics} (h : r.Reported reports e)
    (hkept : reports <+: reports') : r.Reported reports' e := by
  obtain ⟨d, hd, hreport⟩ := h
  exact ⟨d, hkept.subset hd, hreport⟩

/-- A visit keeps the reports it starts with, and adds diagnostics about names. -/
def Grows (visit : SubExpression → List String → Visits → Visits) : Prop :=
  ∀ expr path (v : Visits), v.Gains (visit expr path v)

theorem gains_follow {visit : SubExpression → List String → Visits → Visits}
    (h : Grows visit) (v : Visits) (name : Name) :
    v.Gains (r.follow expr path visit v name) := by
  unfold follow
  split
  · exact v.gains_report rfl
  · split
    · exact v.gains_report rfl
    · split
      · exact .refl _
      · exact h _ _ v

theorem gains_foldl_follow {visit : SubExpression → List String → Visits → Visits}
    (h : Grows visit) (names : List Name) (v : Visits) :
    v.Gains (names.foldl (r.follow expr path visit) v) := by
  induction names generalizing v with
  | nil => exact .refl _
  | cons name names ih => exact (gains_follow h v name).trans (ih _)

theorem gains_visitWith {below : SubExpression → List String → Visits → Visits}
    (h : Grows below) (v : Visits) : v.Gains (r.visitWith t below expr path v) := by
  unfold visitWith
  have hundeclared : v.Gains ⟨v.done, v.reports ++ undeclared t expr⟩ := by
    apply Grown.append
    intro d hd
    obtain ⟨name, -, rfl⟩ := List.mem_map.1 hd
    rfl
  exact hundeclared.trans (gains_foldl_follow h _ _)

theorem grows_visit (depth : Nat) : Grows (r.visit t depth) := by
  induction depth with
  | zero => exact fun expr path v => gains_visitWith (fun _ _ _ => .refl _) v
  | succ depth ih => exact fun expr path v => gains_visitWith ih v

/-! ### A visit follows a scan -/

section Follow

variable {scan : SubExpression → List String → List String → Except CompileError (List String)}
  {visit : SubExpression → List String → Visits → Visits} {depth : Nat}

variable (r scan visit) in
/-- Visits show scans of the bodies for which the path has less than `depth` places left. -/
def Agree (depth : Nat) : Prop :=
  ∀ expr ∈ r.bodies, ∀ path done reports, r.Stage path done → r.size < path.length + depth →
    r.Shows reports (visit expr path ⟨done, reports⟩) (scan expr path done)

variable (t reports name) in
/-- Following a reference shows what a scan makes of it. -/
theorem shows_follow (hagree : r.Agree scan visit depth) (hexpr : expr ∈ r.bodies)
    (hstage : r.Stage path done) (hdepth : r.size < path.length + 1 + depth) :
    r.Shows reports (r.follow expr path visit ⟨done, reports⟩ name)
      (r.scanMention t expr.name path scan done (.body name)) := by
  by_cases hdone : name.text ∈ done
  · -- What is done is defined and is not in the path, so there is nothing to report.
    obtain ⟨target, hfind⟩ := Option.isSome_iff_exists.1 (hstage.done_defined _ hdone)
    have hpath : name.text ∉ path := fun hmem => hstage.apart _ hmem hdone
    have hfollow : r.follow expr path visit ⟨done, reports⟩ name = ⟨done, reports⟩ := by
      rw [follow, hfind]
      simp [hpath, hdone]
    rw [scanMention, if_pos hdone, hfollow]
    rfl
  cases hfind : r.find? name.text with
  | none =>
    simp only [follow, scanMention, hfind, if_neg hdone]
    refine ⟨_, List.mem_append_right _ (List.mem_singleton_self _), expr, hexpr, rfl, rfl, rfl, ?_⟩
    intro context hcontext
    exact (Option.some.inj hcontext).symm
  | some target =>
    rw [scanMention_new hdone hfind]
    simp only [follow, hfind]
    by_cases hpath : path.contains name.text = true
    · rw [if_pos hpath, if_pos hpath]
      refine ⟨_, List.mem_append_right _ (List.mem_singleton_self _), expr, hexpr, rfl, rfl, rfl,
        ?_⟩
      intro context hcontext
      cases hcontext
    · rw [if_neg hpath, if_neg hpath, if_neg (by simpa using hdone)]
      have hdefined : r.contains name.text = true := by rw [contains, hfind]; rfl
      have hbelow := hagree target (mem_bodies_of_find? hfind) (name.text :: path) done reports
        (hstage.below hdefined (by simpa using hpath) hdone) (by rw [List.length_cons]; omega)
      cases hscan : scan target (name.text :: path) done with
      | ok inner =>
        rw [hscan] at hbelow
        have hvisit : visit target (name.text :: path) ⟨done, reports⟩ = ⟨inner, reports⟩ := hbelow
        rw [hvisit]
        rfl
      | error e =>
        rw [hscan] at hbelow
        exact hbelow

variable (t reports) in
/-- Following the references of a body shows what a scan makes of its mentions, where the literals
without an action have been reported before. -/
theorem shows_foldl_follow (hagree : r.Agree scan visit depth) (hexpr : expr ∈ r.bodies)
    (hgrows : Grows visit) (hadds : r.AddsNew scan) (hdepth : r.size < path.length + 1 + depth)
    (mentions : List Mention) (seen : List String)
    (hstage : r.Stage path done) (hseen : ∀ name ∈ seen, name ∈ done)
    (hreports : ∀ name, .action name ∈ mentions → t.containsName name.text = false →
      Visits.problem .undefinedIdentifier expr name ∈ reports) :
    r.Shows reports
      ((firstOccurrences seen (mentions.filterMap Mention.body?)).foldl
        (r.follow expr path visit) ⟨done, reports⟩)
      (mentions.foldlM (r.scanMention t expr.name path scan) done) := by
  induction mentions generalizing done seen with
  | nil => rfl
  | cons mention mentions ih =>
    have hrest name (hname : Mention.action name ∈ mentions) :=
      hreports name (List.mem_cons_of_mem _ hname)
    rw [List.foldlM_cons]
    cases mention with
    | action name =>
      rw [List.filterMap_cons_none rfl, scanMention]
      cases hdeclared : t.containsName name.text with
      | true => exact ih seen hstage hseen hrest
      | false =>
        -- The visit has reported the literal before it follows the first reference.
        have hreport := hreports name List.mem_cons_self hdeclared
        refine Reported.mono ⟨_, hreport, expr, hexpr, rfl, rfl, rfl, ?_⟩
          (gains_foldl_follow hgrows _ ⟨done, reports⟩).isPrefix
        intro context hcontext
        exact (Option.some.inj hcontext).symm
    | body name =>
      rw [List.filterMap_cons_some (f := Mention.body?) (b := name) rfl, firstOccurrences]
      by_cases hname : name.text ∈ seen
      · rw [if_pos (by simpa using hname), scanMention, if_pos (hseen _ hname)]
        exact ih seen hstage hseen hrest
      · rw [if_neg (by simpa using hname), List.foldl_cons]
        have hfollow := shows_follow t reports name hagree hexpr hstage hdepth
        cases hscan : r.scanMention t expr.name path scan done (.body name) with
        | error e =>
          rw [hscan] at hfollow
          exact hfollow.mono (gains_foldl_follow hgrows _ _).isPrefix
        | ok done' =>
          rw [hscan] at hfollow
          have hvisits : r.follow expr path visit ⟨done, reports⟩ name = ⟨done', reports⟩ := hfollow
          rw [hvisits]
          have hadded := adds_scanMention hadds hscan
          refine ih (name.text :: seen) (hstage.adds hadded) ?_ hrest
          rw [List.forall_mem_cons]
          exact ⟨mem_of_scanMention hscan, fun other hother => hadded.mem (hseen other hother)⟩

/-- One body of a visit shows what a scan makes of it. -/
theorem shows_visitWith (hagree : r.Agree scan visit depth) (hexpr : expr ∈ r.bodies)
    (hgrows : Grows visit) (hadds : r.AddsNew scan) (hdepth : r.size < path.length + 1 + depth)
    (hstage : r.Stage path done) :
    r.Shows reports (r.visitWith t visit expr path ⟨done, reports⟩)
      (expr.body.mentions.foldlM (r.scanMention t expr.name path scan) done) := by
  have hreports (name : Name) (hname : .action name ∈ expr.body.mentions)
      (hdeclared : t.containsName name.text = false) :
      Visits.problem .undefinedIdentifier expr name ∈ reports ++ undeclared t expr := by
    refine List.mem_append_right _ (List.mem_map_of_mem (List.mem_filter.2 ⟨?_, ?_⟩))
    · exact Regex.action_mem_mentions.1 hname
    · rw [hdeclared]
      rfl
  have hshows := shows_foldl_follow t (reports ++ undeclared t expr) hagree hexpr hgrows hadds
    hdepth
    expr.body.mentions [] hstage (by simp) hreports
  rw [Regex.filterMap_body_mentions] at hshows
  cases hscan : expr.body.mentions.foldlM (r.scanMention t expr.name path scan) done with
  | error e =>
    rw [hscan] at hshows
    exact hshows
  | ok done' =>
    rw [hscan] at hshows
    have hnone : undeclared t expr = [] := by
      rw [undeclared, List.map_eq_nil_iff, List.filter_eq_nil_iff]
      intro name hname
      rw [containsName_of_scan hscan (Regex.action_mem_mentions.2 hname)]
      decide
    rw [hnone, List.append_nil] at hshows
    rw [visitWith, hnone, List.append_nil]
    exact hshows

end Follow

/-- A visit shows what a scan makes of a body. -/
theorem agree_visit (depth : Nat) : r.Agree (r.scanBody t depth) (r.visit t depth) (depth + 1) := by
  induction depth with
  | zero =>
    intro expr hexpr path done reports hstage hdepth
    have hdepth' : r.size < path.length + 1 + 0 := by omega
    refine shows_visitWith ?_ hexpr ?_ addsNew_refused hdepth' hstage
    · -- No name is left for a longer path.
      intro _ _ path _ _ hstage hdepth
      have hlength := hstage.length_le
      omega
    · exact fun _ _ v => .refl _
  | succ depth ih =>
    intro expr hexpr path done reports hstage hdepth
    have hdepth' : r.size < path.length + 1 + (depth + 1) := by omega
    exact shows_visitWith ih hexpr (grows_visit depth) (addsNew_scanBody depth) hdepth' hstage

theorem shows_visits : r.Shows [] (r.visits t) (r.scan t) :=
  agree_visit r.size r.root List.mem_cons_self [] [] [] .start (by simp)

/-! ### Errors of a resolution -/

theorem Reported.isError {d : Diagnostic} (h : d.kind = e.kind) : d.isError = true := by
  rw [Diagnostic.isError, Diagnostic.severity, h, e.severity_kind]
  rfl

/-- The problem of a scan is an error of the resolution. -/
theorem reported_of_scan (h : r.scan t = .error e) :
    r.Reported (r.resolve t).diagnostics e := by
  have hshows := shows_visits (r := r) (t := t)
  rw [h] at hshows
  exact hshows.mono (List.prefix_append _ _)

/-- Resolving finds no syntax errors. -/
theorem isSyntaxError_eq_false_of_mem {d : Diagnostic} (hd : d ∈ (r.resolve t).diagnostics) :
    d.kind.isSyntaxError = false := by
  rcases List.mem_append.1 hd with hd | hd
  · exact (grows_visit (r := r) (t := t) r.size r.root [] ⟨[], []⟩).of_nil d hd
  · obtain ⟨entry, -, rfl⟩ := List.mem_map.1 hd
    rfl

/-- Where a scan ends well, only the warnings about unused definitions are left. -/
theorem resolve_of_scan (h : r.scan t = .ok done) :
    r.resolve t =
      ⟨(r.named.filter fun entry => !done.contains entry.1).map unusedWarning,
        (r.named.filter fun entry => !done.contains entry.1).map (·.1)⟩ := by
  have hshows := shows_visits (r := r) (t := t)
  rw [h] at hshows
  have hvisits : r.visits t = ⟨done, []⟩ := hshows
  rw [resolve, hvisits]
  rfl

/-- A resolution finds no error exactly when the scan ends well. -/
theorem hasErrors_eq_false_iff :
    (r.resolve t).diagnostics.hasErrors = false ↔ ∃ done, r.scan t = .ok done := by
  cases hscan : r.scan t with
  | error e =>
    obtain ⟨d, hd, expr, -, hkind, -⟩ := reported_of_scan hscan
    refine iff_of_false (fun hnone => ?_) (by simp)
    rw [Diagnostics.hasErrors, List.any_eq_false] at hnone
    exact hnone d hd (Reported.isError hkind)
  | ok done =>
    refine iff_of_true ?_ ⟨done, rfl⟩
    rw [Diagnostics.hasErrors, List.any_eq_false, resolve_of_scan hscan]
    intro d hd
    obtain ⟨entry, -, rfl⟩ := List.mem_map.1 hd
    show ¬ (DiagnosticKind.unusedSubExpression.severity = .error : Bool) = true
    decide

/-! ### Bodies by source -/

theorem name_root : r.root.name = none := by
  rw [SubExpression.name, r.root_role]

theorem name_of_find? {name : String} (h : r.find? name = some expr) : expr.name = some name :=
  r.names_agree _ (find?_eq_some_iff.1 h)

theorem eq_of_source_eq {expr' : SubExpression} (h : r.DistinctSources) (hexpr : expr ∈ r.bodies)
    (hexpr' : expr' ∈ r.bodies) (hsource : expr.source = expr'.source) : expr = expr' :=
  List.inj_on_of_nodup_map h hexpr hexpr' hsource

theorem name_eq_none_iff (hexpr : expr ∈ r.bodies) (h : r.DistinctSources) :
    expr.name = none ↔ expr.source = r.root.source := by
  constructor
  · intro hname
    rcases mem_bodies_iff.1 hexpr with rfl | ⟨name, hfind⟩
    · rfl
    · rw [name_of_find? hfind] at hname
      cases hname
  · intro hsource
    rw [eq_of_source_eq h hexpr List.mem_cons_self hsource]
    exact name_root

theorem name_eq_some_iff {name : String} (hexpr : expr ∈ r.bodies) (h : r.DistinctSources) :
    expr.name = some name ↔ ∃ s, r.find? name = some s ∧ s.source = expr.source := by
  constructor
  · intro hname
    rcases mem_bodies_iff.1 hexpr with rfl | ⟨other, hfind⟩
    · rw [name_root] at hname
      cases hname
    · rw [name_of_find? hfind] at hname
      cases hname
      exact ⟨expr, hfind, rfl⟩
  · rintro ⟨s, hfind, hsource⟩
    rw [eq_of_source_eq h hexpr (mem_bodies_of_find? hfind) hsource.symm]
    exact name_of_find? hfind

/-- A resolution finds no error if and only if the compilation of the registry succeeds. The problem
that ends a compilation is one of the errors, about the same name and in the body that the problem
names. -/
theorem resolve_agrees (h : r.DistinctSources) :
    ((r.resolve t).diagnostics.hasErrors = false ↔ ∃ A, (r.compile t).1 = .ok A) ∧
      ∀ abort, (r.compile t).1 = .error abort → ∃ e, abort = .problem e ∧
        ∃ d ∈ (r.resolve t).diagnostics, d.isError = true ∧ d.kind = e.kind ∧
          d.detail = some e.name ∧ ∀ context, e.context? = some context →
            (context = none ↔ d.source = r.root.source) ∧
            ∀ name, context = some name ↔ ∃ s, r.find? name = some s ∧ s.source = d.source := by
  rw [hasErrors_eq_false_iff]
  rcases compile_cases (r := r) (t := t) with ⟨⟨A, hA⟩, hscan⟩ | ⟨e, hcompile, hscan⟩
  · refine ⟨iff_of_true hscan ⟨A, hA⟩, fun abort habort => ?_⟩
    rw [hA] at habort
    cases habort
  · refine ⟨iff_of_false (by simp [hscan]) (by simp [hcompile]), fun abort habort => ?_⟩
    rw [hcompile] at habort
    cases habort
    obtain ⟨d, hd, expr, hexpr, hkind, hdetail, hsource, hcontext⟩ := reported_of_scan hscan
    refine ⟨e, rfl, d, hd, Reported.isError hkind, hkind, hdetail, fun context h' => ?_⟩
    rw [hcontext context h', hsource]
    exact ⟨name_eq_none_iff hexpr h, fun name => name_eq_some_iff hexpr h⟩

/-- The grammar `<a>` with `<a> = x <a>`. -/
def endless : Registry where
  root := ⟨.root, .ref ⟨"a", .unplaced⟩, ⟨0⟩, .unplaced⟩
  named := [("a", ⟨.named "a" false,
    .concat [.literal ⟨"x", .unplaced⟩, .ref ⟨"a", .unplaced⟩], ⟨1⟩, .unplaced⟩)]
  root_role := rfl
  names_agree := by simp [SubExpression.name]
  names_nodup := List.nodup_singleton "a"

/-- The one action `x`. -/
def oneAction : ActionTable := ⟨[.ofName "x"], [⟨0⟩], by decide, by decide⟩

theorem resolve_agrees_endless : endless.DistinctSources ∧
    (endless.compile oneAction).1 = .error (.problem (.recursiveSubExpression "a")) ∧
    (endless.resolve oneAction).diagnostics.hasErrors = true ∧
    ∃ d ∈ (endless.resolve oneAction).diagnostics, d.kind = .recursiveSubExpression := by
  have hsources : endless.DistinctSources := by decide
  have hcompile : (endless.compile oneAction).1 =
      .error (.problem (.recursiveSubExpression "a")) := by rfl
  obtain ⟨hiff, herrors⟩ := resolve_agrees (t := oneAction) hsources
  obtain ⟨e, he, d, hd, -, hkind, -⟩ := herrors _ hcompile
  cases he
  refine ⟨hsources, hcompile, ?_, d, hd, hkind⟩
  rw [← Bool.not_eq_false, hiff, hcompile]
  simp

end Registry
end CallChain
