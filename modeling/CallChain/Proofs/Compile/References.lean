import CallChain.Proofs.Compile.Grounded
import CallChain.Proofs.Compile.Order

/-!
# References are transparent

What a reference stands for may be written in its place. A rewriting of a registry puts other bodies
into the places of references (`Regex.Replaces`), and `Registry.Stands` says which: a reference to a
definition of the same content, or the body itself where it has no scope of its own. Rewritten
bodies are grounded if the bodies were, and have the same words, because an environment solves both
registries alike; and the words of the root tell the compiled automaton.

A body with a scope of its own may not be put into the place of a reference, unless the root is this
reference: the scope of the root closes the closed words once more, which changes nothing
(`Registry.Unwraps`).

* `automaton_eq_of_language`: the words of the root tell the automaton.
* `compile_transparent`: rewriting and unwrapping do not change what is compiled.
-/

namespace CallChain

/-! ### Bodies in the places of references -/

namespace Regex

mutual

/-- The same body but for the places of references, where there is what `stands` allows. -/
inductive Replaces (stands : Name → Regex → Prop) : Regex → Regex → Prop where
  | literal (name : Name) : Replaces stands (literal name) (literal name)
  | ref {name : Name} {body : Regex} (h : stands name body) : Replaces stands (ref name) body
  | anchor (mark : Anchor) : Replaces stands (anchor mark) (anchor mark)
  | concat {operands operands' : List Regex} (h : ReplacesAll stands operands operands') :
      Replaces stands (concat operands) (concat operands')
  | alt {operands operands' : List Regex} (h : ReplacesAll stands operands operands') :
      Replaces stands (alt operands) (alt operands')
  | quantified {operand operand' : Regex} {q : Quantifier} (h : Replaces stands operand operand') :
      Replaces stands (quantified operand q) (quantified operand' q)
  | nonEmpty {operand operand' : Regex} (h : Replaces stands operand operand') :
      Replaces stands (nonEmpty operand) (nonEmpty operand')

inductive ReplacesAll (stands : Name → Regex → Prop) : List Regex → List Regex → Prop where
  | nil : ReplacesAll stands [] []
  | cons {operand operand' : Regex} {operands operands' : List Regex}
      (hfirst : Replaces stands operand operand') (hrest : ReplacesAll stands operands operands') :
      ReplacesAll stands (operand :: operands) (operand' :: operands')

end

variable {stands : Name → Regex → Prop}

mutual

/-- Nothing has to be replaced. -/
theorem Replaces.refl (h : ∀ name, stands name (ref name)) : ∀ body, Replaces stands body body
  | .literal name => .literal name
  | .ref name => .ref (h name)
  | .anchor mark => .anchor mark
  | .concat operands => .concat (ReplacesAll.refl h operands)
  | .alt operands => .alt (ReplacesAll.refl h operands)
  | .quantified operand _ => .quantified (Replaces.refl h operand)
  | .nonEmpty operand => .nonEmpty (Replaces.refl h operand)

theorem ReplacesAll.refl (h : ∀ name, stands name (ref name)) :
    ∀ bodies, ReplacesAll stands bodies bodies
  | [] => .nil
  | body :: bodies => .cons (Replaces.refl h body) (ReplacesAll.refl h bodies)

end

/-- Where a mention comes from: it was there, or it is one of what replaces a reference. -/
def Origin (stands : Name → Regex → Prop) (mentions : List Mention) (mention : Mention) : Prop :=
  (mention.action?.isSome ∧ mention ∈ mentions) ∨
    ∃ name, .body name ∈ mentions ∧ ∃ body, stands name body ∧ mention ∈ body.mentions

theorem Origin.mono {mentions mentions' : List Mention} {mention : Mention}
    (h : Origin stands mentions mention) (hsubset : mentions ⊆ mentions') :
    Origin stands mentions' mention := by
  rcases h with ⟨haction, hmem⟩ | ⟨name, hname, hbody⟩
  · exact .inl ⟨haction, hsubset hmem⟩
  · exact .inr ⟨name, hsubset hname, hbody⟩

mutual

theorem Replaces.origin : ∀ {body body' : Regex}, Replaces stands body body' →
    ∀ mention ∈ body'.mentions, Origin stands body.mentions mention
  | _, _, .literal name, mention, hmention => by
    refine .inl ⟨?_, hmention⟩
    rw [List.mem_singleton.1 hmention]
    rfl
  | _, _, .ref h, mention, hmention => .inr ⟨_, List.mem_singleton_self _, _, h, hmention⟩
  | _, _, .anchor _, _, hmention => nomatch hmention
  | _, _, .concat h, mention, hmention => h.origin mention hmention
  | _, _, .alt h, mention, hmention => h.origin mention hmention
  | _, _, .quantified h, mention, hmention => h.origin mention hmention
  | _, _, .nonEmpty h, mention, hmention => h.origin mention hmention

theorem ReplacesAll.origin : ∀ {bodies bodies' : List Regex}, ReplacesAll stands bodies bodies' →
    ∀ mention ∈ mentionsOf bodies', Origin stands (mentionsOf bodies) mention
  | _, _, .nil, _, hmention => nomatch hmention
  | _, _, .cons hfirst hrest, mention, hmention => by
    rcases List.mem_append.1 hmention with hmention | hmention
    · exact (hfirst.origin mention hmention).mono (List.subset_append_left _ _)
    · exact (hrest.origin mention hmention).mono (List.subset_append_right _ _)

end

section Language

variable {t : ActionTable} {env env' : String → Language SymbolKind}

mutual

/-- The words of a body are kept if what replaces a reference has the words of the reference. -/
theorem Replaces.language_eq : ∀ {body body' : Regex}, Replaces stands body body' →
    (∀ name ∈ body.refs, ∀ inner, stands name inner → inner.refs ⊆ body'.refs →
      inner.language t env' = env name.text) →
    body'.language t env' = body.language t env
  | _, _, .literal _, _ => rfl
  | _, _, .ref h, hstands => hstands _ (List.mem_singleton_self _) _ h (List.Subset.refl _)
  | _, _, .anchor _, _ => rfl
  | _, _, .concat h, hstands => congrArg List.prod (h.languages_eq hstands)
  | _, _, .alt h, hstands => congrArg List.sum (h.languages_eq hstands)
  | _, _, .quantified (q := q) h, hstands =>
    congrArg (Quantifier.repeated · q) (h.language_eq hstands)
  | _, _, .nonEmpty h, hstands => by
    rw [language, language, h.language_eq hstands]

theorem ReplacesAll.languages_eq : ∀ {bodies bodies' : List Regex},
    ReplacesAll stands bodies bodies' →
    (∀ name ∈ refsOf bodies, ∀ inner, stands name inner → inner.refs ⊆ refsOf bodies' →
      inner.language t env' = env name.text) →
    languagesOf t env' bodies' = languagesOf t env bodies
  | _, _, .nil, _ => rfl
  | _, _, .cons hfirst hrest, hstands => by
    rw [languagesOf, languagesOf, hfirst.language_eq, hrest.languages_eq]
    · intro name hname inner hinner hsubset
      exact hstands name (List.mem_append_right _ hname) inner hinner
        fun _ hmem => List.mem_append_right _ (hsubset hmem)
    · intro name hname inner hinner hsubset
      exact hstands name (List.mem_append_left _ hname) inner hinner
        fun _ hmem => List.mem_append_left _ (hsubset hmem)

end

end Language

end Regex

/-! ### Rewritten registries -/

namespace Registry

section Rewrites

variable (r r' : Registry)

/-- Definitions with the same body, which both have a scope of their own or both have none. -/
def Twins (name name' : String) : Prop :=
  (r.find? name').map (fun s => (s.body, s.ownScope)) =
    (r.find? name).map fun s => (s.body, s.ownScope)

/-- What may be put into the place of a reference: a reference to the same definition or to a twin
of it, or the body that is referred to, unless this has a scope of its own. -/
inductive Stands : Name → Regex → Prop where
  | ref {name name' : Name} (h : r.Twins name.text name'.text) : Stands name (.ref name')
  | body {name : Name} {s : SubExpression} (hs : r.find? name.text = some s)
      (hscope : s.ownScope = false) : Stands name s.body

/-- The root and the definitions of the first registry are those of the second, which may have more
of them, but for what is put into the places of references. -/
structure Rewrites : Prop where
  root : r.root.body.Replaces r.Stands r'.root.body
  named : ∀ name s, r.find? name = some s →
    ∃ s', r'.find? name = some s' ∧ s'.ownScope = s.ownScope ∧
      s.body.Replaces r.Stands s'.body

/-- The root of the first registry is a reference to a definition with a scope of its own, and the
root of the second is the body of this definition. -/
structure Unwraps : Prop where
  named : r'.named = r.named
  root : ∃ name s, r.root.body = .ref name ∧ r.find? name.text = some s ∧ s.ownScope = true ∧
    r'.root.body = s.body

end Rewrites

variable {r r' : Registry} {t : ActionTable} {body body' : Regex} {name name' : Name}
  {s : SubExpression} {env env' : String → Language SymbolKind}

theorem replaces_self (body : Regex) : body.Replaces r.Stands body :=
  .refl (fun _ => .ref rfl) body

/-- A twin is rewritten like the definition it is a twin of. -/
theorem Rewrites.exists_twin (hr : r.Rewrites r') (hs : r.find? name.text = some s)
    (h : r.Twins name.text name'.text) :
    ∃ s', r'.find? name'.text = some s' ∧ s'.ownScope = s.ownScope ∧
      s.body.Replaces r.Stands s'.body := by
  rw [Twins, hs] at h
  obtain ⟨twin, htwin, hsame⟩ := Option.map_eq_some_iff.1 h
  obtain ⟨hbody, hscope⟩ := Prod.mk.inj hsame
  obtain ⟨s', hs', hscope', hreplaces⟩ := hr.named _ twin htwin
  exact ⟨s', hs', hscope'.trans hscope, hbody ▸ hreplaces⟩

/-- A rewritten body is grounded if the body was. -/
theorem Rewrites.grounded (hr : r.Rewrites r') (h : r.Grounded t body)
    (hbody : body.Replaces r.Stands body') : r'.Grounded t body' := by
  induction h generalizing body' with
  | @intro body hliterals hrefs hbehind ih =>
    have hstands (name : Name) (hname : name ∈ body.refs) (inner : Regex)
        (hinner : r.Stands name inner) : r'.Grounded t inner := by
      obtain ⟨s, hs⟩ := Option.isSome_iff_exists.1 (hrefs name hname)
      have hs' : r.Behind s.body body := ⟨name, hname, s, hs, rfl⟩
      cases hinner with
      | ref htwins =>
        obtain ⟨twin, htwin, -, hreplaces⟩ := hr.exists_twin hs htwins
        refine grounded_iff.2 ⟨fun _ h => (List.not_mem_nil h).elim, fun other hother => ?_⟩
        rw [List.mem_singleton.1 hother]
        exact ⟨twin, htwin, ih _ hs' hreplaces⟩
      | body hfind _ =>
        -- The body comes as it is, but what it refers to has been rewritten.
        rw [hs] at hfind
        cases hfind
        exact ih _ hs' (replaces_self _)
    refine grounded_iff.2 ⟨fun literal hliteral => ?_, fun name hname => ?_⟩
    · rcases hbody.origin _ (Regex.action_mem_mentions.2 hliteral) with
        ⟨-, hmem⟩ | ⟨name, hname, inner, hinner, hmem⟩
      · apply hliterals
        exact Regex.action_mem_mentions.1 hmem
      · have hgrounded := hstands name (Regex.body_mem_mentions.1 hname) inner hinner
        exact (grounded_iff.1 hgrounded).1 literal (Regex.action_mem_mentions.1 hmem)
    · rcases hbody.origin _ (Regex.body_mem_mentions.2 hname) with
        ⟨haction, -⟩ | ⟨other, hother, inner, hinner, hmem⟩
      · cases haction
      · have hgrounded := hstands other (Regex.body_mem_mentions.1 hother) inner hinner
        exact hgrounded.exists_find? (Regex.body_mem_mentions.1 hmem)

/-- A rewritten body has the same words. -/
theorem Rewrites.language_eq (hr : r.Rewrites r') (henv : r.Solves t env)
    (henv' : r'.Solves t env') (h : r.Grounded t body) (hbody : body.Replaces r.Stands body')
    (hreached : ∀ name ∈ body.refs, r.Reaches name.text)
    (hreached' : ∀ name ∈ body'.refs, r'.Reaches name.text) :
    body'.language t env' = body.language t env := by
  induction h generalizing body' with
  | @intro body _ hrefs _ ih =>
    refine hbody.language_eq fun name hname inner hinner hsubset => ?_
    obtain ⟨s, hs⟩ := Option.isSome_iff_exists.1 (hrefs name hname)
    have hs' : r.Behind s.body body := ⟨name, hname, s, hs, rfl⟩
    have hbelow : ∀ other ∈ s.body.refs, r.Reaches other.text :=
      fun other hother => .step (hreached name hname) hs hother
    -- Both environments give a reference the words of its body, which agree by the induction.
    rw [henv name.text s (hreached name hname) hs]
    cases hinner with
    | @ref name' htwins =>
      obtain ⟨twin, htwin, hscope, hreplaces⟩ := hr.exists_twin hs htwins
      have hname' : r'.Reaches name'.text :=
        hreached' name' (hsubset (List.mem_singleton_self name'))
      have hwords : twin.body.language t env' = s.body.language t env :=
        ih _ hs' hreplaces hbelow fun other hother => .step hname' htwin hother
      rw [Regex.language, henv' _ twin hname' htwin, SubExpression.language, hscope, hwords,
        SubExpression.language]
    | body hfind hscope =>
      rw [hs] at hfind
      cases hfind
      rw [SubExpression.language, if_neg (by rw [hscope]; decide)]
      exact ih _ hs' (replaces_self _) hbelow fun other hother => hreached' other (hsubset hother)

theorem Rewrites.language_root_eq (hr : r.Rewrites r') (henv : r.Solves t env)
    (henv' : r'.Solves t env') (h : r.Grounded t r.root.body) :
    r'.root.language t env' = r.root.language t env := by
  rw [language_root, language_root, hr.language_eq henv henv' h hr.root]
  · exact fun name hname => .root hname
  · exact fun name hname => .root hname

theorem Rewrites.refl (r : Registry) : r.Rewrites r where
  root := replaces_self _
  named _ s hs := ⟨s, hs, rfl, replaces_self _⟩

/-! ### Unwrapped registries -/

theorem Unwraps.grounded_iff (h : r.Unwraps r') :
    r'.Grounded t r'.root.body ↔ r.Grounded t r.root.body := by
  obtain ⟨hnamed, name, s, hroot, hs, -, hroot'⟩ := h
  rw [hroot, hroot']
  constructor
  · intro hbody
    refine Registry.grounded_iff.2 ⟨fun _ h => (List.not_mem_nil h).elim, fun other hother => ?_⟩
    rw [List.mem_singleton.1 hother]
    exact ⟨s, hs, hbody.congr hnamed.symm⟩
  · intro href
    obtain ⟨s', hs', hbody⟩ := href.exists_find? (List.mem_singleton_self name)
    rw [hs] at hs'
    cases hs'
    exact hbody.congr hnamed

theorem Unwraps.reaches (h : r.Unwraps r') {name : String} (hname : r'.Reaches name) :
    r.Reaches name := by
  obtain ⟨hnamed, root, s, hroot, hs, -, hroot'⟩ := h
  have hstart : r.Reaches root.text := .root (by rw [hroot]; exact List.mem_singleton_self root)
  induction hname with
  | root hname =>
    rw [hroot'] at hname
    exact .step hstart hs hname
  | step _ hs' hname ih =>
    rw [find?, hnamed] at hs'
    exact .step ih hs' hname

theorem Unwraps.solves (h : r.Unwraps r') (henv : r.Solves t env) : r'.Solves t env := by
  intro name s hname hs
  rw [find?, h.named] at hs
  exact henv name s (h.reaches hname) hs

/-- The scope of the root closes a closed language once more. -/
theorem Unwraps.language_eq (h : r.Unwraps r') (henv : r.Solves t env) :
    r'.root.language t env = r.root.language t env := by
  obtain ⟨-, name, s, hroot, hs, hscope, hroot'⟩ := h
  have hname : r.Reaches name.text := .root (by rw [hroot]; exact List.mem_singleton_self name)
  have hlanguage : r.root.body.language t env = Scope.close (s.body.language t env) := by
    rw [hroot, Regex.language, henv _ s hname hs, SubExpression.language, hscope, if_pos rfl]
  rw [language_root, language_root, hroot', hlanguage,
    Scope.close_eq_self (Scope.isChain_close _)]

/-! ### Compiling -/

variable {A A' : Automaton}

/-- The words of the root tell the automaton. -/
theorem automaton_eq_of_language (hA : (r.compile t).1 = .ok A) (hA' : (r'.compile t).1 = .ok A')
    (h : ∀ env env', r.Solves t env → r'.Solves t env' →
      r'.root.language t env' = r.root.language t env) : A' = A := by
  obtain ⟨compiled, d, hmemo, hrefs, hd, rfl⟩ := exists_of_compile_eq_ok hA
  obtain ⟨compiled', d', hmemo', hrefs', hd', rfl⟩ := exists_of_compile_eq_ok hA'
  rw [h _ _ (hmemo.solves hrefs) (hmemo'.solves hrefs')] at hd'
  exact Alphabet.canonical_chainAutomaton_eq hd (isChain_root _) hd'

theorem Rewrites.compile_eq (hr : r.Rewrites r') (hA : (r.compile t).1 = .ok A) :
    (r'.compile t).1 = .ok A := by
  have hgrounded := exists_compile_iff.1 ⟨A, hA⟩
  obtain ⟨A', hA'⟩ := exists_compile_iff.2 (hr.grounded hgrounded hr.root)
  rw [hA']
  refine congrArg Except.ok (automaton_eq_of_language hA hA' fun env env' henv henv' => ?_)
  exact hr.language_root_eq henv henv' hgrounded

theorem Unwraps.compile_eq (hr : r.Unwraps r') (hA : (r.compile t).1 = .ok A) :
    (r'.compile t).1 = .ok A := by
  have hgrounded := hr.grounded_iff.2 (exists_compile_iff.1 ⟨A, hA⟩)
  obtain ⟨A', hA'⟩ := exists_compile_iff.2 hgrounded
  rw [hA']
  refine congrArg Except.ok (automaton_eq_of_language hA hA' fun env env' henv henv' => ?_)
  rw [← hr.language_eq henv]
  exact (Rewrites.refl r').language_root_eq (hr.solves henv) henv' hgrounded

end Registry

variable {r r' : Registry} {t : ActionTable} {A : Automaton}

/-- References are transparent. A registry that compiles still compiles, and to the same automaton,
when references in its bodies are replaced, any of them and in any number of rounds, by the bodies
that they refer to, if these have no scope of their own, or by references to definitions with the
same body and scope. A root that only refers to a definition with a scope of its own compiles to the
same automaton as the body of this definition. -/
theorem compile_transparent :
    (Relation.ReflTransGen Registry.Rewrites r r' → (r.compile t).1 = .ok A →
      (r'.compile t).1 = .ok A) ∧
    (r.Unwraps r' → ((r.compile t).1 = .ok A ↔ (r'.compile t).1 = .ok A)) := by
  constructor
  · intro hrounds hA
    induction hrounds with
    | refl => exact hA
    | tail _ hr ih => exact hr.compile_eq ih
  · intro hr
    refine ⟨hr.compile_eq, fun hA' => ?_⟩
    -- The reference compiles if the body does, and then to what the body compiles to.
    have hgrounded := Registry.exists_compile_iff.1 ⟨A, hA'⟩
    obtain ⟨A', hA⟩ := Registry.exists_compile_iff.2 (hr.grounded_iff.1 hgrounded)
    rw [hA, ← hA', hr.compile_eq hA]

/-- The grammar `<sum>`, where `<sum>` is `<items> <end>` with a scope of its own, `<items>` is
`add*` and so is `<more>`, and `<end>` is `total`. -/
def nestedSums : Registry where
  root := .unplaced .root (.ref ⟨"sum", .unplaced⟩)
  named := [
    ("sum", .unplaced (.named "sum" true)
      (.concat [.ref ⟨"items", .unplaced⟩, .ref ⟨"end", .unplaced⟩])),
    ("items", .unplaced (.named "items" false) (.quantified (.literal ⟨"add", .unplaced⟩) .star)),
    ("more", .unplaced (.named "more" false) (.quantified (.literal ⟨"add", .unplaced⟩) .star)),
    ("end", .unplaced (.named "end" false) (.literal ⟨"total", .unplaced⟩))]
  root_role := rfl
  names_agree := by decide
  names_nodup := by decide

/-- The body `<more> total`. -/
def moreTotal : Regex := .concat [.ref ⟨"more", .unplaced⟩, .literal ⟨"total", .unplaced⟩]

/-- The same grammar with this body for `<sum>`. -/
def rewrittenSums : Registry where
  root := nestedSums.root
  named := replaceNamed "sum" (.unplaced (.named "sum" true) moreTotal) nestedSums.named
  root_role := rfl
  names_agree := by decide
  names_nodup := by decide

/-- The same grammar with this body for a root. -/
def unwrappedSums : Registry where
  root := .unplaced .root moreTotal
  named := rewrittenSums.named
  root_role := rfl
  names_agree := rewrittenSums.names_agree
  names_nodup := rewrittenSums.names_nodup

theorem rewrites_nestedSums : nestedSums.Rewrites rewrittenSums where
  root := Registry.replaces_self _
  named name s hs := by
    rw [Registry.find?, rewrittenSums, lookup_replaceNamed]
    split
    · rename_i hname
      subst hname
      cases hs
      have hend : nestedSums.Stands ⟨"end", .unplaced⟩ (.literal ⟨"total", .unplaced⟩) :=
        .body (s := .unplaced (.named "end" false) (.literal ⟨"total", .unplaced⟩)) rfl rfl
      exact ⟨_, rfl, rfl, .concat (.cons (.ref (.ref rfl)) (.cons (.ref hend) .nil))⟩
    · exact ⟨s, hs, rfl, Registry.replaces_self _⟩

theorem compile_transparent_nestedSums : ∃ A, (nestedSums.compile sumActions).1 = .ok A ∧
    (rewrittenSums.compile sumActions).1 = .ok A ∧
    (unwrappedSums.compile sumActions).1 = .ok A := by
  have hcompiles : (nestedSums.compile sumActions).1.toOption.map (fun A => A.stateCount) =
      some 1 := by decide +kernel
  have hunwraps : rewrittenSums.Unwraps unwrappedSums :=
    ⟨rfl, ⟨"sum", .unplaced⟩, _, rfl, rfl, rfl, rfl⟩
  obtain ⟨A, hA, -⟩ := exists_of_toOption_map hcompiles
  have hA' := compile_transparent.1 (.single rewrites_nestedSums) hA
  exact ⟨A, hA, hA', (compile_transparent.2 hunwraps).1 hA'⟩

end CallChain
