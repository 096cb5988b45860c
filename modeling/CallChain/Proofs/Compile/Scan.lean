import CallChain.Compile.Problem
import CallChain.Proofs.Lists
import CallChain.Proofs.Meaning
import CallChain.Registry

/-!
# What a compilation looks at

A compilation meets the names of a body from left to right, each literal and each reference once per
occurrence, and compiles the body behind a reference when it meets its name for the first time.
`Registry.scan` follows the names in the same way without making anything: it answers the names of
the bodies that were compiled, or the problem that ends the compilation.

* `action_mem_mentions`, `body_mem_mentions`: mentions are the literals and the references.
* `language_congr`: only the words of the names that a body refers to matter.
* `Stage.length_le`: a path is never longer than the registry.
-/

namespace CallChain

/-- What a body names. -/
inductive Mention where
  | action (name : Name)
  | body (name : Name)
deriving DecidableEq, Repr

namespace Regex

mutual

/-- The literals and references, in order of occurrence. -/
def mentions : Regex → List Mention
  | literal name => [.action name]
  | ref name => [.body name]
  | anchor _ => []
  | concat operands => mentionsOf operands
  | alt operands => mentionsOf operands
  | quantified operand _ => mentions operand
  | nonEmpty operand => mentions operand

def mentionsOf : List Regex → List Mention
  | [] => []
  | operand :: operands => mentions operand ++ mentionsOf operands

end

end Regex

def Mention.action? : Mention → Option Name
  | action name => some name
  | body _ => none

def Mention.body? : Mention → Option Name
  | action _ => none
  | body name => some name

namespace Regex

mutual

theorem filterMap_action_mentions : ∀ expr : Regex,
    expr.mentions.filterMap Mention.action? = expr.literals
  | literal _ => rfl
  | ref _ => rfl
  | anchor _ => rfl
  | concat operands => filterMap_action_mentionsOf operands
  | alt operands => filterMap_action_mentionsOf operands
  | quantified operand _ => filterMap_action_mentions operand
  | nonEmpty operand => filterMap_action_mentions operand

theorem filterMap_action_mentionsOf : ∀ operands : List Regex,
    (mentionsOf operands).filterMap Mention.action? = literalsOf operands
  | [] => rfl
  | operand :: operands => by
    rw [mentionsOf, List.filterMap_append, filterMap_action_mentions operand,
      filterMap_action_mentionsOf operands, literalsOf]

end

mutual

theorem filterMap_body_mentions : ∀ expr : Regex,
    expr.mentions.filterMap Mention.body? = expr.refs
  | literal _ => rfl
  | ref _ => rfl
  | anchor _ => rfl
  | concat operands => filterMap_body_mentionsOf operands
  | alt operands => filterMap_body_mentionsOf operands
  | quantified operand _ => filterMap_body_mentions operand
  | nonEmpty operand => filterMap_body_mentions operand

theorem filterMap_body_mentionsOf : ∀ operands : List Regex,
    (mentionsOf operands).filterMap Mention.body? = refsOf operands
  | [] => rfl
  | operand :: operands => by
    rw [mentionsOf, List.filterMap_append, filterMap_body_mentions operand,
      filterMap_body_mentionsOf operands, refsOf]

end

variable {expr : Regex} {name : Name}

theorem action_mem_mentions : .action name ∈ expr.mentions ↔ name ∈ expr.literals := by
  rw [← filterMap_action_mentions, List.mem_filterMap]
  constructor
  · exact fun h => ⟨_, h, rfl⟩
  · rintro ⟨m, hm, heq⟩
    cases m with
    | action name =>
      cases heq
      exact hm
    | body name => cases heq

theorem body_mem_mentions : .body name ∈ expr.mentions ↔ name ∈ expr.refs := by
  rw [← filterMap_body_mentions, List.mem_filterMap]
  constructor
  · exact fun h => ⟨_, h, rfl⟩
  · rintro ⟨m, hm, heq⟩
    cases m with
    | action name => cases heq
    | body name =>
      cases heq
      exact hm

/-! ### Languages depend on references -/

section Congr

variable (t : ActionTable) {env env' : String → Language SymbolKind}

mutual

/-- Only the words of the names that a body refers to matter. -/
theorem language_congr : ∀ expr : Regex, (∀ name ∈ expr.refs, env name.text = env' name.text) →
    expr.language t env = expr.language t env'
  | literal _, _ => rfl
  | ref name, h => h name (List.mem_singleton_self name)
  | anchor _, _ => rfl
  | concat operands, h => congrArg List.prod (languagesOf_congr operands h)
  | alt operands, h => congrArg List.sum (languagesOf_congr operands h)
  | quantified operand q, h => by
    rw [language, language, language_congr operand h]
  | nonEmpty operand, h => by
    rw [language, language, language_congr operand h]

theorem languagesOf_congr : ∀ operands : List Regex,
    (∀ name ∈ refsOf operands, env name.text = env' name.text) →
      languagesOf t env operands = languagesOf t env' operands
  | [], _ => rfl
  | operand :: operands, h => by
    rw [refsOf, List.forall_mem_append] at h
    rw [languagesOf, languagesOf, language_congr operand h.1, languagesOf_congr operands h.2]

end

end Congr

end Regex

theorem SubExpression.language_congr {t : ActionTable} {env env' : String → Language SymbolKind}
    {s : SubExpression} (h : ∀ name ∈ s.body.refs, env name.text = env' name.text) :
    s.language t env = s.language t env' := by
  rw [SubExpression.language, SubExpression.language, Regex.language_congr t s.body h]

/-! ### Scanning -/

namespace Registry

variable (r : Registry) (t : ActionTable)

/-- Looks at a name; `done` holds the names of the bodies that have been compiled, and `below`
scans the body of a definition below the names in `path`. -/
def scanMention (context : Option String) (path : List String)
    (below : SubExpression → List String → List String → Except CompileError (List String))
    (done : List String) : Mention → Except CompileError (List String)
  | .action name =>
    if t.containsName name.text then .ok done else .error (.undefinedIdentifier name.text context)
  | .body name =>
    if name.text ∈ done then .ok done
    else
      match r.find? name.text with
      | none => .error (.undefinedSubExpression name.text context)
      | some target =>
        if path.contains name.text then .error (.recursiveSubExpression name.text)
        else (below target (name.text :: path) done).map (name.text :: ·)

/-- Scans a body, `depth` being the number of names that are left for its path. -/
def scanBody : Nat → SubExpression → List String → List String →
    Except CompileError (List String)
  | depth, expr, path, done =>
    let below :=
      match depth with
      | 0 => fun target _ _ => .error (.recursiveSubExpression (target.name.getD ""))
      | depth + 1 => scanBody depth
    expr.body.mentions.foldlM (r.scanMention t expr.name path below) done

/-- The names of the bodies that a compilation compiles, or its problem. -/
def scan : Except CompileError (List String) := r.scanBody t r.size r.root [] []

/-! ### What a scan adds -/

/-- What a scan adds are names of definitions, and none of them is in the path. -/
def Adds (path done done' : List String) : Prop :=
  ∃ added, done' = added ++ done ∧ ∀ name ∈ added, name ∉ path ∧ r.contains name = true

/-- Each body adds such names. -/
def AddsNew (scan : SubExpression → List String → List String →
    Except CompileError (List String)) : Prop :=
  ∀ expr path done done', scan expr path done = .ok done' → r.Adds path done done'

section Adds

variable {r t} {context : Option String} {path done done' : List String}
  {below : SubExpression → List String → List String → Except CompileError (List String)}

/-- A reference to a body that is not compiled yet. -/
theorem scanMention_new {name : Name} {target : SubExpression} (h : name.text ∉ done)
    (hfind : r.find? name.text = some target) :
    r.scanMention t context path below done (.body name) =
      if path.contains name.text then .error (.recursiveSubExpression name.text)
      else (below target (name.text :: path) done).map (name.text :: ·) := by
  rw [scanMention, if_neg h, hfind]

/-- What a reference adds that is met for the first time. -/
theorem scanMention_body {name : Name} (h : name.text ∉ done)
    (hscan : r.scanMention t context path below done (.body name) = .ok done') :
    ∃ target inner, r.find? name.text = some target ∧ name.text ∉ path ∧
      below target (name.text :: path) done = .ok inner ∧ done' = name.text :: inner := by
  rw [scanMention, if_neg h] at hscan
  cases hfind : r.find? name.text with
  | none =>
    rw [hfind] at hscan
    cases hscan
  | some target =>
    rw [hfind] at hscan
    simp only at hscan
    split at hscan
    · cases hscan
    · rename_i hpath
      cases hinner : below target (name.text :: path) done with
      | error e =>
        rw [hinner] at hscan
        cases hscan
      | ok inner =>
        rw [hinner] at hscan
        cases hscan
        exact ⟨target, inner, rfl, by simpa using hpath, hinner, rfl⟩

theorem mem_of_scanMention {name : Name}
    (h : r.scanMention t context path below done (.body name) = .ok done') :
    name.text ∈ done' := by
  by_cases hmet : name.text ∈ done
  · rw [scanMention, if_pos hmet] at h
    cases h
    exact hmet
  · obtain ⟨target, inner, -, -, -, rfl⟩ := scanMention_body hmet h
    exact List.mem_cons_self

/-- A scan that succeeds has met no literal without an action. -/
theorem containsName_of_scan {mentions : List Mention} {name : Name}
    (h : mentions.foldlM (r.scanMention t context path below) done = .ok done')
    (hname : .action name ∈ mentions) : t.containsName name.text = true := by
  obtain ⟨before, after, -, hmet, -⟩ := exists_step_of_foldlM h hname
  rw [scanMention] at hmet
  by_contra hdeclared
  rw [if_neg hdeclared] at hmet
  cases hmet

theorem Adds.refl : r.Adds path done done := ⟨[], rfl, by simp⟩

theorem Adds.trans {done'' : List String} (h : r.Adds path done done')
    (h' : r.Adds path done' done'') : r.Adds path done done'' := by
  obtain ⟨added, rfl, hadded⟩ := h
  obtain ⟨added', rfl, hadded'⟩ := h'
  refine ⟨added' ++ added, (List.append_assoc added' added done).symm, ?_⟩
  rw [List.forall_mem_append]
  exact ⟨hadded', hadded⟩

theorem Adds.not_mem {name : String} (h : r.Adds path done done') (hpath : name ∈ path)
    (hdone : name ∉ done) : name ∉ done' := by
  obtain ⟨added, rfl, hadded⟩ := h
  rw [List.mem_append, not_or]
  exact ⟨fun hname => (hadded name hname).1 hpath, hdone⟩

theorem Adds.mem {name : String} (h : r.Adds path done done') (hname : name ∈ done) :
    name ∈ done' := by
  obtain ⟨added, rfl, -⟩ := h
  exact List.mem_append_right added hname

/-- What one name adds. -/
theorem adds_scanMention (hbelow : r.AddsNew below) {mention : Mention}
    (h : r.scanMention t context path below done mention = .ok done') : r.Adds path done done' := by
  cases mention with
  | action other =>
    rw [scanMention] at h
    split at h
    · cases h
      exact .refl
    · cases h
  | body other =>
    by_cases hmet : other.text ∈ done
    · rw [scanMention, if_pos hmet] at h
      cases h
      exact .refl
    · obtain ⟨target, inner, hfind, hpath, hinner, rfl⟩ := scanMention_body hmet h
      obtain ⟨added, rfl, hadded⟩ := hbelow _ _ _ _ hinner
      refine ⟨other.text :: added, rfl, ?_⟩
      rw [List.forall_mem_cons]
      refine ⟨⟨hpath, by rw [contains, hfind]; rfl⟩, fun name hname => ?_⟩
      exact ⟨fun hmem => (hadded name hname).1 (List.mem_cons_of_mem _ hmem),
        (hadded name hname).2⟩

theorem adds_foldlM (hbelow : r.AddsNew below) {mentions : List Mention}
    (h : mentions.foldlM (r.scanMention t context path below) done = .ok done') :
    r.Adds path done done' :=
  foldlM_ok_induction (P := r.Adds path done)
    (fun _ _ _ _ hstep hkept => hkept.trans (adds_scanMention hbelow hstep)) .refl h

/-- Where no name is left for a longer path every body is refused, so nothing is added. -/
theorem addsNew_refused : r.AddsNew fun target _ _ =>
    .error (.recursiveSubExpression (target.name.getD "")) := by
  intro _ _ _ _ h
  cases h

theorem addsNew_scanBody (depth : Nat) : r.AddsNew (r.scanBody t depth) := by
  induction depth with
  | zero =>
    intro expr path done done' h
    exact adds_foldlM addsNew_refused h
  | succ depth ih =>
    intro expr path done done' h
    exact adds_foldlM ih h

/-- A scan that succeeds has met all references. -/
theorem mem_of_scan (hbelow : r.AddsNew below) {mentions : List Mention} {name : Name}
    (h : mentions.foldlM (r.scanMention t context path below) done = .ok done')
    (hname : .body name ∈ mentions) : name.text ∈ done' := by
  obtain ⟨before, after, later, hmet, hlater⟩ := exists_step_of_foldlM h hname
  exact (adds_foldlM hbelow hlater).mem (mem_of_scanMention hmet)

end Adds

/-! ### Stages -/

variable {r} {path done done' : List String}

theorem find?_eq_some_iff {name : String} {s : SubExpression} :
    r.find? name = some s ↔ (name, s) ∈ r.named :=
  lookup_eq_some_iff_mem r.names_nodup

theorem mem_names_of_contains {name : String} (h : r.contains name = true) : name ∈ r.names := by
  obtain ⟨s, hs⟩ := Option.isSome_iff_exists.1 h
  exact List.mem_map.2 ⟨_, find?_eq_some_iff.1 hs, rfl⟩

variable (r) in
/-- A path of names with bodies that wait for each other, and the names of bodies that are done. -/
structure Stage (path done : List String) : Prop where
  nodup : path.Nodup
  path_defined : ∀ name ∈ path, r.contains name = true
  done_defined : ∀ name ∈ done, r.contains name = true
  apart : ∀ name ∈ path, name ∉ done

namespace Stage

theorem start : r.Stage [] [] :=
  ⟨List.nodup_nil, by simp, by simp, by simp⟩

/-- A path holds at most all names. -/
theorem length_le (h : r.Stage path done) : path.length ≤ r.size := by
  have hsubset : path ⊆ r.names := fun name hname =>
    mem_names_of_contains (h.path_defined name hname)
  have hlength := (List.subperm_of_subset h.nodup hsubset).length_le
  rwa [names, List.length_map] at hlength

theorem below {name : String} (h : r.Stage path done) (hdefined : r.contains name = true)
    (hpath : name ∉ path) (hdone : name ∉ done) : r.Stage (name :: path) done where
  nodup := List.nodup_cons.2 ⟨hpath, h.nodup⟩
  path_defined := List.forall_mem_cons.2 ⟨hdefined, h.path_defined⟩
  done_defined := h.done_defined
  apart := List.forall_mem_cons.2 ⟨hdone, h.apart⟩

theorem adds (h : r.Stage path done) (hadds : r.Adds path done done') : r.Stage path done' where
  nodup := h.nodup
  path_defined := h.path_defined
  done_defined := by
    obtain ⟨added, rfl, hadded⟩ := hadds
    rw [List.forall_mem_append]
    exact ⟨fun name hname => (hadded name hname).2, h.done_defined⟩
  apart := fun name hname => hadds.not_mem hname (h.apart name hname)

end Stage

end Registry

end CallChain
