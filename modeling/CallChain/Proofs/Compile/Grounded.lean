import CallChain.Proofs.Compile.Result
import Mathlib.Logic.Relation

/-!
# Which registries compile

A body is grounded if its literals are declared, its references are defined, and following them
comes to an end (`Registry.Grounded`). A scan that ends well has met grounded bodies only, and the
scan of a grounded body ends well, since no name on the way to it is met again. So a registry
compiles exactly if the body of its root is grounded.

* `Grounded.not_behind_self`: no grounded body stands behind its own references.
* `exists_compile_iff`, `compile_faultless`: which registries compile, and that the others have a
  problem.
-/

namespace CallChain

namespace Registry

section Grounded

variable (r : Registry) (t : ActionTable)

/-- The first body is the one that a reference of the second stands for. -/
def Behind (inner outer : Regex) : Prop :=
  ∃ name ∈ outer.refs, ∃ s, r.find? name.text = some s ∧ s.body = inner

/-- The literals of a body are declared, its references are defined, and so it is behind them. -/
inductive Grounded : Regex → Prop where
  | intro {body : Regex} (hliterals : ∀ name ∈ body.literals, t.containsName name.text = true)
      (hrefs : ∀ name ∈ body.refs, r.contains name.text = true)
      (hbehind : ∀ inner, r.Behind inner body → Grounded inner) : Grounded body

end Grounded

variable {r r' : Registry} {t : ActionTable} {body : Regex} {name : Name}

theorem grounded_iff : r.Grounded t body ↔
    (∀ name ∈ body.literals, t.containsName name.text = true) ∧
      ∀ name ∈ body.refs, ∃ s, r.find? name.text = some s ∧ r.Grounded t s.body := by
  constructor
  · rintro ⟨hliterals, hrefs, hbehind⟩
    refine ⟨hliterals, fun name hname => ?_⟩
    obtain ⟨s, hs⟩ := Option.isSome_iff_exists.1 (hrefs name hname)
    exact ⟨s, hs, hbehind _ ⟨name, hname, s, hs, rfl⟩⟩
  · rintro ⟨hliterals, hrefs⟩
    refine .intro hliterals (fun name hname => ?_) ?_
    · obtain ⟨s, hs, -⟩ := hrefs name hname
      exact Option.isSome_iff_exists.2 ⟨s, hs⟩
    · rintro _ ⟨name, hname, s, hs, rfl⟩
      obtain ⟨s', hs', hgrounded⟩ := hrefs name hname
      rw [hs] at hs'
      cases hs'
      exact hgrounded

theorem Grounded.exists_find? (h : r.Grounded t body) (hname : name ∈ body.refs) :
    ∃ s, r.find? name.text = some s ∧ r.Grounded t s.body :=
  (grounded_iff.1 h).2 name hname

/-- Only the definitions of a registry matter. -/
theorem Grounded.congr (h : r.Grounded t body) (hnamed : r'.named = r.named) :
    r'.Grounded t body := by
  have hfind : r'.find? = r.find? := by
    funext name
    rw [find?, find?, hnamed]
  induction h with
  | intro hliterals hrefs _ ih =>
    refine .intro hliterals (fun name hname => ?_) fun inner hinner => ih inner ?_
    · rw [contains, hfind]
      exact hrefs name hname
    · rwa [Behind, hfind] at hinner

/-- Following the references of a grounded body never leads back to it. -/
theorem Grounded.not_behind_self (h : r.Grounded t body) :
    ¬ Relation.TransGen r.Behind body body := by
  induction h with
  | intro _ _ _ ih =>
    intro hcycle
    -- The body before the last step of the cycle is on the cycle, too.
    obtain ⟨inner, hback, hinner⟩ := Relation.TransGen.tail'_iff.1 hcycle
    exact ih inner hinner (.head' hinner hback)

/-! ### What a scan has met -/

section Scan

variable {context : Option String} {path done done' : List String} {depth : Nat}
  {below : SubExpression → List String → List String → Except CompileError (List String)}

variable (r t done) in
/-- The definitions with these names are grounded. -/
def AllGrounded : Prop := ∀ name ∈ done, ∃ s, r.find? name = some s ∧ r.Grounded t s.body

variable (r t below) in
/-- Bodies that are met are grounded. -/
def Grounds : Prop :=
  ∀ expr path done done', below expr path done = .ok done' → r.AllGrounded t done →
    r.Grounded t expr.body ∧ r.AllGrounded t done'

theorem allGrounded_scanMention (hbelow : r.Grounds t below) {mention : Mention}
    (h : r.scanMention t context path below done mention = .ok done')
    (hdone : r.AllGrounded t done) : r.AllGrounded t done' := by
  cases mention with
  | action name =>
    rw [scanMention] at h
    split at h
    · cases h
      exact hdone
    · cases h
  | body name =>
    by_cases hmet : name.text ∈ done
    · rw [scanMention, if_pos hmet] at h
      cases h
      exact hdone
    · obtain ⟨target, inner, hfind, -, hinner, rfl⟩ := scanMention_body hmet h
      obtain ⟨htarget, hall⟩ := hbelow _ _ _ _ hinner hdone
      exact List.forall_mem_cons.2 ⟨⟨target, hfind, htarget⟩, hall⟩

theorem grounded_foldlM (hbelow : r.Grounds t below) (hadds : r.AddsNew below)
    (h : body.mentions.foldlM (r.scanMention t context path below) done = .ok done')
    (hdone : r.AllGrounded t done) : r.Grounded t body ∧ r.AllGrounded t done' := by
  have hall : r.AllGrounded t done' := by
    refine foldlM_ok_induction (P := r.AllGrounded t) ?_ hdone h
    exact fun _ _ _ _ hstep hkept => allGrounded_scanMention hbelow hstep hkept
  refine ⟨grounded_iff.2 ⟨fun name hname => ?_, fun name hname => hall name.text ?_⟩, hall⟩
  · exact containsName_of_scan h (Regex.action_mem_mentions.2 hname)
  · exact mem_of_scan hadds h (Regex.body_mem_mentions.2 hname)

theorem grounds_scanBody (depth : Nat) : r.Grounds t (r.scanBody t depth) := by
  induction depth with
  | zero =>
    intro expr path done done' h hdone
    refine grounded_foldlM ?_ addsNew_refused h hdone
    intro _ _ _ _ hrefused
    cases hrefused
  | succ depth ih =>
    intro expr path done done' h hdone
    exact grounded_foldlM ih (addsNew_scanBody depth) h hdone

/-! ### Scans of grounded bodies -/

/-- Mentions are scanned to the end if each of them can be scanned, whatever has been met before. -/
theorem exists_foldlM (hadds : r.AddsNew below) {mentions : List Mention}
    (hstage : r.Stage path done)
    (h : ∀ mention ∈ mentions, ∀ done, r.Stage path done →
      ∃ done', r.scanMention t context path below done mention = .ok done') :
    ∃ done', mentions.foldlM (r.scanMention t context path below) done = .ok done' := by
  induction mentions generalizing done with
  | nil => exact ⟨done, rfl⟩
  | cons mention mentions ih =>
    rw [List.forall_mem_cons] at h
    obtain ⟨met, hmet⟩ := h.1 done hstage
    rw [List.foldlM_cons, hmet]
    exact ih (hstage.adds (adds_scanMention hadds hmet)) h.2

variable (r) in
/-- The bodies with the names of a path wait for a body. -/
def Waits (path : List String) (body : Regex) : Prop :=
  ∀ name ∈ path, ∀ s, r.find? name = some s → Relation.ReflTransGen r.Behind body s.body

/-- A body behind a grounded body is waited for by one name more, which is new. -/
theorem Waits.of_ref {target : SubExpression} (h : r.Waits path body) (hbody : r.Grounded t body)
    (hname : name ∈ body.refs) (hfind : r.find? name.text = some target) :
    name.text ∉ path ∧ r.Waits (name.text :: path) target.body := by
  have hinner : r.Behind target.body body := ⟨name, hname, target, hfind, rfl⟩
  constructor
  · intro hmem
    exact hbody.not_behind_self (.tail' (h _ hmem target hfind) hinner)
  · refine List.forall_mem_cons.2 ⟨fun s hs => ?_, fun other hother s hs => ?_⟩
    · rw [hfind] at hs
      cases hs
      exact .refl
    · exact (h other hother s hs).head hinner

/-- The mentions of a grounded body are scanned to the end if the bodies behind it are. -/
theorem exists_mentions (hbody : r.Grounded t body) (hadds : r.AddsNew below)
    (hstage : r.Stage path done) (hwaits : r.Waits path body)
    (hbelow : ∀ name target done, r.Behind target.body body → r.Stage (name :: path) done →
      r.Waits (name :: path) target.body → ∃ done', below target (name :: path) done = .ok done') :
    ∃ done', body.mentions.foldlM (r.scanMention t context path below) done = .ok done' := by
  obtain ⟨hliterals, hrefs⟩ := grounded_iff.1 hbody
  refine exists_foldlM hadds hstage ?_
  rintro (name | name) hname done hstage
  · refine ⟨done, if_pos ?_⟩
    exact hliterals name (Regex.action_mem_mentions.1 hname)
  · have hname : name ∈ body.refs := Regex.body_mem_mentions.1 hname
    obtain ⟨target, hfind, -⟩ := hrefs name hname
    by_cases hmet : name.text ∈ done
    · exact ⟨done, if_pos hmet⟩
    obtain ⟨hfresh, hwaits'⟩ := hwaits.of_ref hbody hname hfind
    have hdefined : r.contains name.text = true := Option.isSome_iff_exists.2 ⟨target, hfind⟩
    obtain ⟨met, hscan⟩ := hbelow name.text target done ⟨name, hname, target, hfind, rfl⟩
      (hstage.below hdefined hfresh hmet) hwaits'
    refine ⟨name.text :: met, ?_⟩
    rw [scanMention_new hmet hfind, if_neg (by simpa using hfresh), hscan]
    rfl

/-- The scan of a grounded body ends well. -/
theorem exists_scanBody (h : r.Grounded t body) {expr : SubExpression} (hexpr : expr.body = body)
    (hstage : r.Stage path done) (hdepth : r.size ≤ path.length + depth)
    (hwaits : r.Waits path body) : ∃ done', r.scanBody t depth expr path done = .ok done' := by
  induction h generalizing expr depth path done with
  | @intro body hliterals hrefs hbehind ih =>
    have hbody : r.Grounded t expr.body := hexpr ▸ .intro hliterals hrefs hbehind
    subst hexpr
    cases depth with
    | zero =>
      refine exists_mentions hbody addsNew_refused hstage hwaits ?_
      -- The path holds all names already.
      intro name _ _ _ hstage' _
      have hlength := hstage'.length_le
      rw [List.length_cons] at hlength
      omega
    | succ depth =>
      refine exists_mentions hbody (addsNew_scanBody depth) hstage hwaits ?_
      intro name target done hinner hstage' hwaits'
      refine ih _ hinner rfl hstage' ?_ hwaits'
      rw [List.length_cons]
      omega

end Scan

/-- A registry compiles exactly if its root is grounded. -/
theorem exists_compile_iff :
    (∃ A, (r.compile t).1 = .ok A) ↔ r.Grounded t r.root.body := by
  have hscan : (∃ done, r.scan t = .ok done) ↔ r.Grounded t r.root.body := by
    constructor
    · rintro ⟨done, hdone⟩
      exact (grounds_scanBody r.size r.root [] [] done hdone (by simp [AllGrounded])).1
    · exact fun h => exists_scanBody h rfl .start (by simp) (by simp [Waits])
  rw [← hscan]
  rcases compile_cases (r := r) (t := t) with ⟨hA, hdone⟩ | ⟨e, he, herror⟩
  · exact iff_of_true hA hdone
  · exact iff_of_false (by simp [he]) (by simp [herror])

end Registry

/-- Compiling meets no fault, whatever is compiled: it results in an automaton if the root is
grounded, and in the problem of a body if it is not. So none of the checks on the way fails:
alphabets that have to be equal are, symbols have columns and ranges stay below them, nodes, states,
blocks and handles are there wherever they are looked up or written, and what a search meets has a
number. -/
theorem compile_faultless (r : Registry) (t : ActionTable) :
    (r.Grounded t r.root.body ∧ ∃ A, (r.compile t).1 = .ok A) ∨
      ¬ r.Grounded t r.root.body ∧ ∃ e, (r.compile t).1 = .error (.problem e) := by
  rw [← Registry.exists_compile_iff]
  rcases compile_cases (r := r) (t := t) with ⟨hA, -⟩ | ⟨e, he, -⟩
  · exact .inl ⟨hA, hA⟩
  · refine .inr ⟨?_, e, he⟩
    rintro ⟨A, hA⟩
    rw [he] at hA
    cases hA

end CallChain
