import CallChain.Compile
import CallChain.Proofs.Compile.Fragment
import CallChain.Proofs.Compile.Memo
import CallChain.Proofs.Compile.Outcome
import Mathlib.Algebra.BigOperators.Group.List.Basic

/-!
# Compiling bodies

A compilation ends like the scan of its names, and its automata represent the languages of the
bodies under the environment of its memo.

* `follows_toFragment`: fragments have the words of their expressions.
* `bodies_compileBody`: bodies are represented by their automata.
-/

namespace CallChain

open CompileM

/-- The names of the bodies that have been compiled. -/
def Progress.names (p : Progress) : List String := p.compiled.map (·.1)

/-! ### Following a scan -/

section Follows

variable (r : Registry) (t : ActionTable)

/-- What lies between two moments of a compilation that met some names. -/
structure Advances (step : List String → Mention → Except CompileError (List String))
    (mentions : List Mention) (p p' : Progress) : Prop where
  scan_eq : mentions.foldlM step p.names = .ok p'.names
  memo : Memo r t p'.compiled
  suffix : p.compiled <:+ p'.compiled
  refs_mem : ∀ name, .body name ∈ mentions → name.text ∈ p'.names

/-- A step of a compilation ends like the scan of the names that it meets. -/
def Follows {α : Type} (m : CompileM α) (p : Progress)
    (step : List String → Mention → Except CompileError (List String)) (mentions : List Mention)
    (post : α → Progress → Prop) : Prop :=
  m.Outcome p (fun x p' => Advances r t step mentions p p' ∧ post x p')
    fun e => mentions.foldlM step p.names = .error e

variable {r t} {α β : Type} {m : CompileM α} {p p' p'' : Progress}
  {step : List String → Mention → Except CompileError (List String)}
  {mentions mentions' : List Mention} {post : α → Progress → Prop} {post' : β → Progress → Prop}

theorem advances_of_eq (h : Memo r t p.compiled) (hcompiled : p'.compiled = p.compiled) :
    Advances r t step [] p p' where
  scan_eq := by
    show Except.ok (p.compiled.map (·.1)) = .ok (p'.compiled.map (·.1))
    rw [hcompiled]
  memo := hcompiled ▸ h
  suffix := hcompiled ▸ List.suffix_refl _
  refs_mem _ h := by cases h

theorem Advances.names_suffix (h : Advances r t step mentions p p') : p.names <:+ p'.names :=
  h.suffix.map _

theorem Advances.trans (h : Advances r t step mentions p p')
    (h' : Advances r t step mentions' p' p'') :
    Advances r t step (mentions ++ mentions') p p'' where
  scan_eq := by
    rw [List.foldlM_append, h.scan_eq]
    exact h'.scan_eq
  memo := h'.memo
  suffix := h.suffix.trans h'.suffix
  refs_mem name hname := by
    rcases List.mem_append.1 hname with hname | hname
    · exact h'.names_suffix.mem (h.refs_mem name hname)
    · exact h'.refs_mem name hname

/-- The environment of an earlier moment is that of a later one on the names that were met. -/
theorem Advances.environment_eq (h : Advances r t step mentions p p') {name : String}
    (hname : name ∈ p.names) : environment t p'.compiled name = environment t p.compiled name :=
  h.memo.environment_eq h.suffix hname

theorem follows_pure {x : α} (hmemo : Memo r t p.compiled) (h : post x p) :
    Follows r t (pure x) p step [] post :=
  outcome_pure ⟨advances_of_eq hmemo rfl, h⟩

theorem follows_checked {result : Except Fault α} {x : α} (hresult : result = .ok x)
    (hmemo : Memo r t p.compiled) (h : post x p) : Follows r t (checked result) p step [] post :=
  outcome_checked hresult ⟨advances_of_eq hmemo rfl, h⟩

theorem Follows.bind {f : α → CompileM β} (h : Follows r t m p step mentions post)
    (hf : ∀ x p', Advances r t step mentions p p' → post x p' →
      Follows r t (f x) p' step mentions' post') :
    Follows r t (m >>= f) p step (mentions ++ mentions') post' := by
  refine Outcome.bind (Outcome.mono h ?_ ?_)
  · rintro x p' ⟨hadvances, hpost⟩
    refine Outcome.mono (hf x p' hadvances hpost) ?_ ?_
    · rintro y p'' ⟨hadvances', hpost'⟩
      exact ⟨hadvances.trans hadvances', hpost'⟩
    · intro e he
      rw [List.foldlM_append, hadvances.scan_eq]
      exact he
  · intro e he
    rw [List.foldlM_append, he]
    rfl

/-- What a step does afterwards without meeting any names or compiling bodies. -/
theorem Follows.andThen {f : α → CompileM β} (h : Follows r t m p step mentions post)
    (hf : ∀ x p', Advances r t step mentions p p' → post x p' →
      (f x).Outcome p' (fun y p'' => p''.compiled = p'.compiled ∧ post' y p'') fun _ => False) :
    Follows r t (m >>= f) p step mentions post' := by
  rw [← List.append_nil mentions]
  refine Follows.bind h fun x p' hadvances hpost => ?_
  refine Outcome.mono (hf x p' hadvances hpost) ?_ fun _ h => h.elim
  rintro y p'' ⟨hcompiled, hpost'⟩
  exact ⟨advances_of_eq hadvances.memo hcompiled, hpost'⟩

end Follows

/-! ### Fragments -/

section Fragment

variable {r : Registry} {t : ActionTable} {context : Option String} {lookup : Name → CompileM Dfa}
  {step : List String → Mention → Except CompileError (List String)} {p : Progress} {n : Nfa}

variable (r t context lookup step) in
/-- Names are looked up and scanned alike. -/
structure Agrees : Prop where
  action : ∀ done name, step done (.action name) =
    if t.containsName name.text then .ok done
    else .error (.undefinedIdentifier name.text context)
  lookup : ∀ name p, Memo r t p.compiled → Follows r t (lookup name) p step [.body name]
    fun d p' => (Alphabet.ofTable t).Represents d (environment t p'.compiled name.text)

theorem follows_literal (h : Agrees r t context lookup step) (hmemo : Memo r t p.compiled)
    (hn : n.alphabet = (Alphabet.ofTable t).size) (name : Name) :
    Follows r t (Regex.literalFragment (Alphabet.ofTable t) context name n) p step [.action name]
      fun made _ => Nfa.Makes n ∅ made ((t.overloads name.text).map (Alphabet.ofTable t).code) := by
  unfold Regex.literalFragment
  cases hname : t.containsName name.text with
  | true =>
    obtain ⟨range, hrange, hstop, hiff⟩ := Alphabet.exists_range hname
    have hstop : range.stop ≤ n.alphabet :=
      hn ▸ hstop.trans (Nat.le_of_lt (Alphabet.actionCount_lt_size _))
    rw [hrange, ← Alphabet.rangeWords_eq hiff]
    refine outcome_checked (Nfa.makeSymbols_eq hstop)
      ⟨⟨?_, hmemo, List.suffix_refl _, ?_⟩, Nfa.makes_symbols hstop⟩
    · rw [foldlM_singleton, h.action, if_pos hname]
    · intro name h
      cases List.mem_singleton.1 h
  | false =>
    rw [Alphabet.range?_eq_none hname]
    refine outcome_fail ?_
    rw [foldlM_singleton, h.action, if_neg (by rw [hname]; decide)]

/-- A copy of an automaton that represents a language. -/
theorem outcome_embed {d : Dfa} {L : Language SymbolKind} {fails : CompileError → Prop}
    (hn : n.alphabet = (Alphabet.ofTable t).size) (hd : (Alphabet.ofTable t).Represents d L) :
    Outcome (.checked (n.embed d)) p
      (fun made p' => p'.compiled = p.compiled ∧
        Nfa.Makes n ∅ made (L.map (Alphabet.ofTable t).code)) fails := by
  obtain ⟨made, hmade, hmakes⟩ := Nfa.exists_embed hd.toWellFormed (hd.alphabet_eq.trans hn.symm)
  refine outcome_checked hmade ⟨rfl, ?_⟩
  rwa [hd.words_eq] at hmakes

theorem exists_quantify {made : Nfa × Fragment} {L : Language SymbolKind} {a : Alphabet}
    (h : Nfa.Makes n ∅ made (L.map a.code)) (q : Quantifier) :
    ∃ whole, made.1.quantify made.2 q = .ok whole ∧
      Nfa.Makes n ∅ whole ((q.repeated L).map a.code) := by
  cases q with
  | star =>
    refine ⟨_, Nfa.makeStar_eq h.exit_lt, ?_⟩
    rw [Quantifier.repeated, Language.map_kstar]
    exact (Nfa.makes_star h.holds_added).after h.changes
  | plus =>
    refine ⟨_, Nfa.makePlus_eq h.exit_lt, ?_⟩
    rw [Quantifier.repeated, map_mul, Language.map_kstar]
    exact (Nfa.makes_plus h.holds_added).after h.changes
  | optional =>
    refine ⟨_, Nfa.makeOptional_eq h.exit_lt, ?_⟩
    rw [Quantifier.repeated, map_add, map_one]
    exact (Nfa.makes_optional h.holds_added).after h.changes

mutual

/-- Fragments have the words of their expressions. -/
theorem follows_toFragment (h : Agrees r t context lookup step) : ∀ (expr : Regex) (n : Nfa)
    (p : Progress), n.alphabet = (Alphabet.ofTable t).size → Memo r t p.compiled →
    Follows r t (expr.toFragment (Alphabet.ofTable t) context lookup n) p step expr.mentions
      fun made p' => Nfa.Makes n ∅ made
        ((expr.language t (environment t p'.compiled)).map (Alphabet.ofTable t).code)
  | .literal name, n, p, hn, hmemo => follows_literal h hmemo hn name
  | .ref name, n, p, hn, hmemo => by
    refine Follows.andThen (h.lookup name p hmemo) fun d p' _ hd => ?_
    refine (outcome_embed hn hd).mono ?_ fun _ h => h
    rintro made p'' ⟨hcompiled, hmakes⟩
    refine ⟨hcompiled, ?_⟩
    rwa [hcompiled]
  | .anchor mark, n, p, hn, hmemo => by
    have hlt : (Alphabet.ofTable t).anchorSymbol mark < n.alphabet :=
      hn ▸ Alphabet.anchorSymbol_lt _ mark
    refine follows_checked (Nfa.makeSymbol_eq hlt) hmemo ?_
    rw [Regex.language, Alphabet.map_singleton, Alphabet.code_anchor]
    exact Nfa.makes_symbol hlt
  | .concat operands, n, p, hn, hmemo => by
    refine Follows.andThen (follows_toFragments h operands n p hn hmemo) ?_
    rintro ⟨n', parts⟩ p' - ⟨hchanges, haligned⟩
    refine outcome_checked (Nfa.makeSequence_eq haligned.exit_lt) ⟨rfl, ?_⟩
    rw [Regex.language, map_list_prod]
    exact (Nfa.makes_sequence haligned).after hchanges
  | .alt operands, n, p, hn, hmemo => by
    refine Follows.andThen (follows_toFragments h operands n p hn hmemo) ?_
    rintro ⟨n', parts⟩ p' - ⟨hchanges, haligned⟩
    refine outcome_checked (Nfa.makeAlternation_eq haligned.exit_lt) ⟨rfl, ?_⟩
    rw [Regex.language, map_list_sum]
    exact (Nfa.makes_alternation haligned).after hchanges
  | .quantified operand q, n, p, hn, hmemo => by
    refine Follows.andThen (follows_toFragment h operand n p hn hmemo) ?_
    rintro ⟨n', part⟩ p' - hmakes
    obtain ⟨whole, hwhole, hmakes⟩ := exists_quantify hmakes q
    exact outcome_checked hwhole ⟨rfl, hmakes⟩
  | .nonEmpty operand, n, p, hn, hmemo => by
    refine Follows.andThen (follows_toFragment h operand (.ofAlphabet _) p rfl hmemo) ?_
    rintro ⟨inner, part⟩ p' - hmakes
    obtain ⟨words, hwords, hrepresents⟩ := Alphabet.exists_nonEmptyWords hmakes
    refine Outcome.bind (outcome_checked hwords ?_)
    refine (outcome_embed hn hrepresents).mono ?_ fun _ h => h
    rintro made p'' ⟨hcompiled, hmakes⟩
    refine ⟨hcompiled, ?_⟩
    rw [hcompiled]
    exact hmakes

/-- Fragments side by side. -/
theorem follows_toFragments (h : Agrees r t context lookup step) : ∀ (operands : List Regex)
    (n : Nfa) (p : Progress), n.alphabet = (Alphabet.ofTable t).size → Memo r t p.compiled →
    Follows r t (Regex.toFragments (Alphabet.ofTable t) context lookup operands n) p step
      (Regex.mentionsOf operands)
      fun made p' => Nfa.Changes ∅ n made.1 ∧ made.1.Aligned (n.added made.1) made.2
        ((Regex.languagesOf t (environment t p'.compiled) operands).map
          (Language.map (Alphabet.ofTable t).code))
  | [], n, p, hn, hmemo => by
    refine follows_pure hmemo ⟨.refl _ _, ?_⟩
    rw [Nfa.added_eq_empty rfl]
    exact .nil
  | operand :: operands, n, p, hn, hmemo => by
    refine Follows.bind (follows_toFragment h operand n p hn hmemo) ?_
    rintro ⟨n', part⟩ p' hadvances hmakes
    have hn' : n'.alphabet = (Alphabet.ofTable t).size := hmakes.changes.alphabet_eq.trans hn
    refine Follows.andThen (follows_toFragments h operands n' p' hn' hadvances.memo) ?_
    rintro ⟨n'', parts⟩ p'' hadvances' ⟨hchanges, haligned⟩
    refine outcome_pure ⟨rfl, hmakes.changes.trans hchanges (Set.empty_subset _), ?_⟩
    have hlanguage : operand.language t (environment t p''.compiled) =
        operand.language t (environment t p'.compiled) := by
      refine Regex.language_congr t operand fun name hname => ?_
      exact hadvances'.environment_eq
        (hadvances.refs_mem name (Regex.body_mem_mentions.2 hname))
    rw [Regex.languagesOf, List.map_cons, hlanguage]
    have hpart := hmakes.holds_added.of_changes hchanges (Set.disjoint_empty _)
    have hrow := Nfa.Aligned.cons hpart haligned (Nfa.disjoint_added _)
    rwa [Nfa.added_union hmakes.changes.size_le hchanges.size_le] at hrow

end

end Fragment

/-! ### Bodies -/

section Body

variable {r : Registry} {t : ActionTable} {p : Progress} {n : Nfa}

/-- Closes the scope of an automaton, and tells the log. -/
def Registry.closeLogged (a : Alphabet) (d : Dfa) : CompileM Dfa := do
  let closed ← .checked (a.closeScope d)
  if (← .checked (a.scopeStart d)).isSome then
    .note .trace .scope ("closed scope: " ++ toString d.size ++ " states in, " ++
      toString closed.size ++ " out")
  return closed

/-- Checks may be made together. -/
theorem checked_bind {α β : Type} (result : Except Fault α) (f : α → Except Fault β) :
    CompileM.checked (result >>= f) = CompileM.checked result >>= fun x => .checked (f x) := by
  cases result <;> rfl

/-- Of a body with a scope of its own the words with their start anchor are closed. -/
theorem compileScope_eq (a : Alphabet) (n : Nfa) (body : Fragment) :
    Registry.compileScope a n body =
      CompileM.checked (a.anchoredScope n body) >>= Registry.closeLogged a := by
  simp only [Registry.compileScope, Alphabet.anchoredScope, checked_bind, bind_assoc]
  rfl

theorem outcome_compileScope {body : Fragment} {L : Language SymbolKind}
    (h : Nfa.Makes (.ofAlphabet (Alphabet.ofTable t).size) ∅ (n, body)
      (L.map (Alphabet.ofTable t).code)) :
    (Registry.compileScope (Alphabet.ofTable t) n body).Outcome p
      (fun d p' => p'.compiled = p.compiled ∧
        (Alphabet.ofTable t).Represents d (Scope.close L)) fun _ => False := by
  obtain ⟨m, hm, hminimal, hrepresents, hloop⟩ := Alphabet.exists_anchoredScope h
  obtain ⟨closed, hclosed, hclose⟩ := Alphabet.exists_closeScope hminimal hrepresents
    fun hempty => hloop hempty _
  rw [compileScope_eq]
  refine Outcome.bind (outcome_checked hm ?_)
  unfold Registry.closeLogged
  refine Outcome.bind (outcome_checked hclosed ?_)
  refine Outcome.bind (outcome_checked
    (Alphabet.scopeStart_eq hminimal.toWellFormed hrepresents.alphabet_eq) ?_)
  split
  · exact Outcome.bind (outcome_note fun log => outcome_pure ⟨rfl, hclose⟩)
  · exact outcome_pure ⟨rfl, hclose⟩

/-- A body is represented by its automaton if its references are. -/
theorem follows_compileExpr {lookup : Name → CompileM Dfa} {expr : SubExpression}
    {step : List String → Mention → Except CompileError (List String)}
    (h : Agrees r t expr.name lookup step) (hmemo : Memo r t p.compiled) :
    Follows r t (Registry.compileExpr (Alphabet.ofTable t) lookup expr) p step expr.body.mentions
      fun d p' => (Alphabet.ofTable t).Represents d
        (expr.language t (environment t p'.compiled)) := by
  refine Follows.andThen (follows_toFragment h expr.body _ p rfl hmemo) ?_
  rintro ⟨n, body⟩ p' - hmakes
  unfold SubExpression.language
  cases expr.ownScope with
  | true =>
    refine (outcome_compileScope hmakes).mono ?_ fun _ h => h
    rintro d p'' ⟨hcompiled, hd⟩
    refine ⟨hcompiled, ?_⟩
    rw [hcompiled]
    exact hd
  | false =>
    have hd := Alphabet.represents_determinize hmakes
    refine Outcome.bind (outcome_checked (Alphabet.determinized_eq hmakes) ?_)
    exact outcome_checked (Dfa.minimized_eq hd.toWellFormed) ⟨rfl, hd.minimize⟩

/-- How a body is compiled below the names of a path. -/
def Bodies (r : Registry) (t : ActionTable)
    (compile : SubExpression → List String → CompileM Dfa)
    (scan : SubExpression → List String → List String → Except CompileError (List String)) : Prop :=
  ∀ expr path p, Memo r t p.compiled →
    (compile expr path).Outcome p
      (fun d p' => scan expr path p.names = .ok p'.names ∧ Memo r t p'.compiled ∧
        p.compiled <:+ p'.compiled ∧ (∀ name ∈ expr.body.refs, name.text ∈ p'.names) ∧
        (Alphabet.ofTable t).Represents d (expr.language t (environment t p'.compiled)))
      fun e => scan expr path p.names = .error e

theorem mem_names_iff {name : String} : name ∈ p.names ↔ ∃ d, p.compiled.lookup name = some d := by
  rw [← Option.isSome_iff_exists, Progress.names]
  induction p.compiled with
  | nil => simp
  | cons entry compiled ih =>
    rw [List.map_cons, List.mem_cons, List.lookup_cons, ih]
    by_cases h : name = entry.1
    · simp [h]
    · simp [h, beq_eq_false_iff_ne.2 h]

/-- A reference is compiled where it is met for the first time, and the memo has it afterwards. -/
theorem follows_lookup {compile : SubExpression → List String → CompileM Dfa}
    {scan : SubExpression → List String → List String → Except CompileError (List String)}
    (h : Bodies r t compile scan) (hadds : r.AddsNew scan) (context : Option String)
    (path : List String) (name : Name) (hmemo : Memo r t p.compiled) :
    Follows r t (r.lookup compile context path name) p (r.scanMention t context path scan)
      [.body name]
      fun d p' => (Alphabet.ofTable t).Represents d (environment t p'.compiled name.text) := by
  unfold Follows Registry.lookup
  refine Outcome.bind (outcome_get ?_)
  cases hfound : p.compiled.lookup name.text with
  | some d =>
    -- the memo has the name, and the scan has met it
    have hmem : name.text ∈ p.names := mem_names_iff.2 ⟨d, hfound⟩
    have hadvances : Advances r t (r.scanMention t context path scan) [.body name] p p := {
      scan_eq := by rw [foldlM_singleton, Registry.scanMention, if_pos hmem]
      memo := hmemo
      suffix := List.suffix_refl _
      refs_mem := fun other hother => by
        cases List.mem_singleton.1 hother
        exact hmem }
    exact outcome_pure ⟨hadvances, hmemo.represents hfound⟩
  | none =>
    have hfresh : name.text ∉ p.names := by
      rw [mem_names_iff, hfound]
      rintro ⟨d, hd⟩
      cases hd
    dsimp only
    cases hfind : r.find? name.text with
    | none =>
      refine outcome_fail ?_
      rw [foldlM_singleton, Registry.scanMention, if_neg hfresh, hfind]
    | some target =>
      have hscan : [Mention.body name].foldlM (r.scanMention t context path scan) p.names =
          if path.contains name.text then .error (.recursiveSubExpression name.text)
          else (scan target (name.text :: path) p.names).map (name.text :: ·) :=
        (foldlM_singleton _ _ _).trans (Registry.scanMention_new hfresh hfind)
      dsimp only
      split
      next hwaiting =>
        refine outcome_fail ?_
        rw [hscan, if_pos hwaiting]
      next hwaiting =>
        rw [if_neg hwaiting] at hscan
        refine Outcome.bind ((h target (name.text :: path) p hmemo).mono ?compiled ?failed)
        case compiled =>
          rintro d p' ⟨hinner, hmemo', hsuffix, hrefs, hd⟩
          -- what is compiled below the name does not enter the name itself
          have hfresh' : name.text ∉ p'.names :=
            (hadds _ _ _ _ hinner).not_mem List.mem_cons_self hfresh
          refine Outcome.bind (outcome_note fun log => Outcome.bind (outcome_modify ?_))
          have hadvances : Advances r t (r.scanMention t context path scan) [.body name] p
              ⟨(name.text, d) :: p'.compiled, log⟩ := {
            scan_eq := by
              rw [hscan, hinner]
              rfl
            memo := .cons hfind hfresh' hrefs hd hmemo'
            suffix := hsuffix.trans (List.suffix_cons _ _)
            refs_mem := fun other hother => by
              cases List.mem_singleton.1 hother
              exact List.mem_cons_self }
          refine outcome_pure ⟨hadvances, ?_⟩
          rw [environment_cons_self]
          exact Alphabet.represents_decoded hd.toWellFormed hd.alphabet_eq
        case failed =>
          intro e he
          rw [hscan, he]
          rfl

/-- A compilation of bodies ends like their scan, with automata that represent them. -/
theorem bodies_compileBody (depth : Nat) :
    Bodies r t (r.compileBody (Alphabet.ofTable t) depth) (r.scanBody t depth) := by
  have hstep {compile : SubExpression → List String → CompileM Dfa}
      {scan : SubExpression → List String → List String → Except CompileError (List String)}
      (h : Bodies r t compile scan) (hadds : r.AddsNew scan) (expr : SubExpression)
      (path : List String) (p : Progress) (hmemo : Memo r t p.compiled) :
      Follows r t (Registry.compileExpr (Alphabet.ofTable t) (r.lookup compile expr.name path) expr)
        p (r.scanMention t expr.name path scan) expr.body.mentions
        fun d p' => (Alphabet.ofTable t).Represents d
          (expr.language t (environment t p'.compiled)) :=
    follows_compileExpr ⟨fun _ _ => rfl, fun name _ => follows_lookup h hadds expr.name path name⟩
      hmemo
  have hpost {expr : SubExpression} {path : List String} {p : Progress} {m : CompileM Dfa}
      {scan : SubExpression → List String → List String → Except CompileError (List String)}
      (h : Follows r t m p (r.scanMention t expr.name path scan) expr.body.mentions
        fun d p' => (Alphabet.ofTable t).Represents d
          (expr.language t (environment t p'.compiled))) :
      m.Outcome p
        (fun d p' => expr.body.mentions.foldlM (r.scanMention t expr.name path scan) p.names =
          .ok p'.names ∧ Memo r t p'.compiled ∧ p.compiled <:+ p'.compiled ∧
          (∀ name ∈ expr.body.refs, name.text ∈ p'.names) ∧
          (Alphabet.ofTable t).Represents d (expr.language t (environment t p'.compiled)))
        fun e => expr.body.mentions.foldlM (r.scanMention t expr.name path scan) p.names =
          .error e := by
    refine Outcome.mono h ?_ fun _ h => h
    rintro d p' ⟨hadvances, hd⟩
    refine ⟨hadvances.scan_eq, hadvances.memo, hadvances.suffix, fun name hname => ?_, hd⟩
    exact hadvances.refs_mem name (Regex.body_mem_mentions.2 hname)
  induction depth with
  | zero =>
    intro expr path p hmemo
    refine hpost (hstep ?_ Registry.addsNew_refused expr path p hmemo)
    intro target path p _
    exact outcome_fail rfl
  | succ depth ih =>
    intro expr path p hmemo
    exact hpost (hstep ih (Registry.addsNew_scanBody depth) expr path p hmemo)

end Body

end CallChain
