import CallChain.Proofs.Compile.Result

/-!
# Closing is exact

`Alphabet.IsScope` says what an automaton must be for its scope to be closed: its words begin with
the only start anchor in them, and no transition leads to where nothing can be accepted any more.
Its closed scope then accepts exactly what is left of the ways through the words behind the start
anchor (`Alphabet.Crosses`), and every body with a scope of its own becomes such an automaton before
it is closed.

* `IsScope.exists_closeScope`: what closing makes of an automaton.
* `exists_compileBody_eq`: what is closed for a body.
-/

namespace CallChain

namespace Alphabet

variable {a : Alphabet} {d e : Dfa} {q q' entry : Nat} {u v : List Nat}

variable (a d) in
/-- An automaton of the words of a scope with their start anchor. -/
structure IsScope : Prop extends d.WellFormed where
  alphabet_eq : d.alphabet = a.size
  live : ∀ {q s q'}, d.next q s = some q' → ∃ w, w ∈ d.wordsFrom q'
  anchored : ∀ w ∈ d.words, ∃ v, w = a.anchorSymbol .start :: v ∧ a.anchorSymbol .start ∉ v

variable (a d) in
/-- The words behind the start anchor. -/
def behindStart : Language Nat := {v | a.anchorSymbol .start :: v ∈ d.words}

variable (a) in
/-- A way through the words of a scope: it takes actions and passes inner anchors, though none at
once, and goes no further from where the end anchor is possible. -/
structure Crosses (M : Language Nat) (u : List Nat) : Prop where
  begins : ∃ v, u ++ v ∈ M
  symbols : ∀ s ∈ u, s < a.actionCount ∨ s = a.anchorSymbol .inner
  head_ne : u.head? ≠ some (a.anchorSymbol .inner)
  not_ended : ∀ p, p <+: u → p ≠ u → ¬∃ v, p ++ a.anchorSymbol .stop :: v ∈ M

/-! ### Ways through a scope -/

theorem mem_behindStart_iff (hentry : d.next d.initial (a.anchorSymbol .start) = some entry) :
    v ∈ a.behindStart d ↔ v ∈ d.wordsFrom entry := by
  show a.anchorSymbol .start :: v ∈ d.words ↔ _
  rw [Dfa.words_eq, Dfa.cons_mem_wordsFrom, hentry]
  simp

/-- What is run from a live state ends in a live state. -/
theorem IsScope.live_run (h : a.IsScope d) (hq : ∃ w, w ∈ d.wordsFrom q)
    (hrun : d.run q u = some q') : ∃ w, w ∈ d.wordsFrom q' := by
  induction u generalizing q with
  | nil =>
    cases hrun
    exact hq
  | cons s u ih =>
    obtain ⟨t, hnext, hrun⟩ := Option.bind_eq_some_iff.1 hrun
    exact ih (h.live hnext) hrun

/-- What words of the scope begin with is what can be run from its entry. -/
theorem IsScope.begins_iff (h : a.IsScope d)
    (hentry : d.next d.initial (a.anchorSymbol .start) = some entry) :
    (∃ v, u ++ v ∈ a.behindStart d) ↔ ∃ q, d.run entry u = some q := by
  simp only [mem_behindStart_iff hentry, Dfa.append_mem_wordsFrom]
  constructor
  · rintro ⟨v, q, hq, -⟩
    exact ⟨q, hq⟩
  · rintro ⟨q, hq⟩
    obtain ⟨v, hv⟩ := h.live_run (h.live hentry) hq
    exact ⟨v, q, hq, hv⟩

/-- The ways through the words of a scope are those through the states of its automaton. -/
theorem IsScope.crosses_iff (h : a.IsScope d)
    (hentry : d.next d.initial (a.anchorSymbol .start) = some entry) :
    a.Crosses (a.behindStart d) u ↔
      a.Passage d entry u ∧ u.head? ≠ some (a.anchorSymbol .inner) := by
  have hended (p : List Nat) : (∃ v, p ++ a.anchorSymbol .stop :: v ∈ a.behindStart d) ↔
      ∃ q, d.run entry p = some q ∧ a.endsScope d q = true := by
    have hsplit : (∃ v, p ++ a.anchorSymbol .stop :: v ∈ a.behindStart d) ↔
        ∃ v, (p ++ [a.anchorSymbol .stop]) ++ v ∈ a.behindStart d := by simp
    rw [hsplit, h.begins_iff hentry]
    simp only [Dfa.run_append, Option.bind_eq_some_iff, endsScope_iff]
    constructor
    · rintro ⟨q', q, hq, hq'⟩
      exact ⟨q, hq, q', hq'⟩
    · rintro ⟨q, hq, q', hq'⟩
      exact ⟨q', q, hq, hq'⟩
  have hstops : (∀ p, p <+: u → p ≠ u → ¬∃ v, p ++ a.anchorSymbol .stop :: v ∈ a.behindStart d) ↔
      ∀ p, p <+: u → p ≠ u → ∀ q', d.run entry p = some q' → a.endsScope d q' = false := by
    simp only [hended, not_exists, not_and, Bool.not_eq_true]
  rw [passage_iff, ← h.begins_iff hentry, ← hstops]
  constructor
  · intro hu
    exact ⟨⟨hu.begins, hu.symbols, hu.not_ended⟩, hu.head_ne⟩
  · rintro ⟨⟨hbegins, hsymbols, hstop⟩, hhead⟩
    exact ⟨hbegins, hsymbols, hhead, hstop⟩

/-! ### Closed scopes -/

theorem Crosses.of_append {M : Language Nat} (h : a.Crosses M (u ++ v)) : a.Crosses M u where
  begins := by
    obtain ⟨rest, hrest⟩ := h.begins
    exact ⟨v ++ rest, by rwa [← List.append_assoc]⟩
  symbols s hs := h.symbols s (List.mem_append_left v hs)
  head_ne := by
    have hhead := h.head_ne
    cases u with
    | nil => simp
    | cons s u => exact hhead
  not_ended p hp hne := by
    refine h.not_ended p (hp.trans (List.prefix_append u v)) ?_
    rintro rfl
    -- the whole is no proper beginning of its first part
    have hlength := hp.length_le
    rw [List.length_append] at hlength
    refine hne (hp.eq_of_length ?_)
    rw [List.length_append]
    omega

/-- What is left of a way through a scope has no anchors. -/
theorem Crosses.lt_actionCount {M : Language Nat} (h : a.Crosses M u) :
    ∀ s ∈ a.unanchored u, s < a.actionCount := by
  intro s hs
  obtain ⟨hmem, hne⟩ := List.mem_filter.1 hs
  have hinner : s ≠ a.anchorSymbol .inner := by simpa using hne
  exact (h.symbols s hmem).resolve_right hinner

variable (a d e) in
/-- What closing the scope of an automaton must make of it. -/
structure Closes : Prop extends e.WellFormed where
  no_anchor : ∀ q mark, e.next q (a.anchorSymbol mark) = none
  accepting : ∀ q < e.size, e.isAccepting q = true
  mem_words_iff : ∀ w, w ∈ e.words ↔
    w = [] ∨ ∃ u, a.Crosses (a.behindStart d) u ∧ a.unanchored u = w

/-- Without a start anchor there are no words behind it. -/
theorem closes_emptyWord (hentry : d.next d.initial (a.anchorSymbol .start) = none) :
    a.Closes d (.emptyWord d.alphabet) where
  toWellFormed := Dfa.wellFormed_emptyWord _
  no_anchor q mark := Dfa.next_emptyWord _
  accepting q hq := by
    obtain rfl : q = 0 := Nat.lt_one_iff.1 hq
    rfl
  mem_words_iff w := by
    rw [Dfa.mem_words_emptyWord]
    constructor
    · exact .inl
    · rintro (rfl | ⟨u, hu, -⟩)
      · rfl
      · obtain ⟨v, hv⟩ := hu.begins
        obtain ⟨q, hq, -⟩ := Dfa.cons_mem_wordsFrom.1 hv
        rw [hq] at hentry
        cases hentry

/-- The smallest automaton of what is left of the ways through a scope. Its states are reached by
beginnings of such words, and a way through a scope may end anywhere. -/
theorem closes_of_minimal (he : e.Minimal)
    (hwords : ∀ w, w ∈ e.words ↔ ∃ u, a.Crosses (a.behindStart d) u ∧ a.unanchored u = w)
    (hnil : a.Crosses (a.behindStart d) []) : a.Closes d e := by
  have hempty : [] ∈ e.words := (hwords []).2 ⟨[], hnil, rfl⟩
  have hlive := he.live_of_mem hempty
  have hreached {q : Nat} (hq : q < e.size) : ∃ w, e.run e.initial w = some q := by
    rw [he.initial_eq]
    exact he.reached q hq
  -- words through a state are what is left of ways through the scope
  have hthrough {q : Nat} {w v : List Nat} (hw : e.run e.initial w = some q)
      (hv : v ∈ e.wordsFrom q) :
      ∃ u, a.Crosses (a.behindStart d) u ∧ a.unanchored u = w ++ v := by
    rw [← hwords, Dfa.words_eq, Dfa.append_mem_wordsFrom]
    exact ⟨q, hw, hv⟩
  refine ⟨he.toWellFormed, ?_, ?_, ?_⟩
  · intro q mark
    rw [Option.eq_none_iff_forall_ne_some]
    intro q' hnext
    obtain ⟨w, hw⟩ := hreached (Dfa.lt_size_of_next hnext)
    obtain ⟨v, hv⟩ := hlive q' (he.next_lt hnext)
    obtain ⟨u, hu, heq⟩ := hthrough hw (Dfa.cons_mem_wordsFrom.2 ⟨q', hnext, hv⟩)
    have hlt := hu.lt_actionCount (a.anchorSymbol mark) (by rw [heq]; simp)
    have hle := actionCount_le_anchorSymbol a mark
    omega
  · intro q hq
    obtain ⟨w, hw⟩ := hreached hq
    obtain ⟨v, hv⟩ := hlive q hq
    obtain ⟨u, hu, heq⟩ := hthrough hw hv
    obtain ⟨u₁, u₂, rfl, hleft, -⟩ := List.filter_eq_append_iff.1 heq
    have hw' : w ∈ e.words := (hwords w).2 ⟨u₁, hu.of_append, hleft⟩
    rw [Dfa.words_eq, Dfa.mem_wordsFrom, hw] at hw'
    simpa using hw'
  · intro w
    rw [hwords]
    constructor
    · exact .inr
    · rintro (rfl | hw)
      · exact ⟨[], hnil, rfl⟩
      · exact hw

/-- What closing makes of the automaton of a scope. -/
theorem IsScope.exists_closeScope (h : a.IsScope d) : ∃ e, a.closeScope d = .ok e ∧
    a.Closes d e := by
  rw [closeScope, scopeStart_eq h.toWellFormed h.alphabet_eq, ok_bind]
  cases hentry : d.next d.initial (a.anchorSymbol .start) with
  | none => exact ⟨_, rfl, closes_emptyWord hentry⟩
  | some entry =>
    obtain ⟨e, he, hminimal, -, hwords⟩ :=
      exists_closeFrom h.toWellFormed h.alphabet_eq (h.next_lt hentry)
    refine ⟨e, he, closes_of_minimal hminimal ?_ ?_⟩
    · intro w
      simp only [hwords, h.crosses_iff hentry, and_assoc]
    · rw [h.crosses_iff hentry]
      exact ⟨trivial, by simp⟩

/-! ### The automaton of a scope -/

/-- The smallest automaton of a language with its start anchor is that of a scope. -/
theorem isScope_of_represents {t : ActionTable} {L : Language SymbolKind} (hd : d.Minimal)
    (h : (ofTable t).Represents d (anchored L))
    (hloop : d.words = 0 → ∀ s, d.next d.initial s ≠ some d.initial) : (ofTable t).IsScope d where
  toWellFormed := hd.toWellFormed
  alphabet_eq := h.alphabet_eq
  live := by
    intro q s q' hnext
    rcases hd.live with hlive | hsize
    · exact hlive q' (hd.next_lt hnext)
    · by_contra hnone
      -- the only state has a loop, though no word is accepted from it
      have hinitial {p : Nat} (hp : p < d.size) : p = d.initial := by
        have := hd.initial_lt
        omega
      rw [hinitial (hd.next_lt hnext), ← Dfa.words_eq] at hnone
      rw [hinitial (hd.next_lt hnext), hinitial (Dfa.lt_size_of_next hnext)] at hnext
      refine hloop ?_ s hnext
      ext w
      simpa using fun hw => hnone ⟨w, hw⟩
  anchored := by
    intro w hw
    rw [h.words_eq, mem_map_iff] at hw
    obtain ⟨v, ⟨v, hv, rfl⟩, rfl⟩ := hw
    refine ⟨v.map (ofTable t).code, rfl, ?_⟩
    rw [← code_anchor, List.mem_map_of_injective (code_injective _)]
    exact hv.1

theorem Represents.mem_behindStart_iff {t : ActionTable} {L : Language SymbolKind}
    (h : (ofTable t).Represents d (anchored L)) : v ∈ (ofTable t).behindStart d ↔
      ∃ w ∈ Scope.inside L, w.map (ofTable t).code = v := by
  show (ofTable t).anchorSymbol .start :: v ∈ d.words ↔ _
  rw [h.words_eq, mem_map_iff]
  constructor
  · rintro ⟨_, ⟨w, hw, rfl⟩, heq⟩
    exact ⟨w, hw, (List.cons.inj heq).2⟩
  · rintro ⟨w, hw, rfl⟩
    exact ⟨_, ⟨w, hw, rfl⟩, rfl⟩

end Alphabet

/-! ### What is closed for a body -/

namespace CompileM

variable {α β : Type} {m : CompileM α} {p p' : Progress} {x : α} {f : α → CompileM β}

theorem Outcome.of_eq_ok {post : α → Progress → Prop} {fails : CompileError → Prop}
    (h : m.Outcome p post fails) (heq : m p = (.ok x, p')) : post x p' := by
  have hends := h.ends
  rwa [heq] at hends

theorem bind_of_eq_ok (heq : m p = (.ok x, p')) : (m >>= f) p = f x p' := by
  show (match m p with | (result, p') => ExceptT.bindCont f result p') = _
  rw [heq]
  rfl

end CompileM

namespace Registry

variable {r : Registry} {t : ActionTable} {expr : SubExpression} {compiled : List (String × Dfa)}
  {p p' : Progress} {n : Nfa} {body : Fragment}

/-- The same subexpressions below another root. -/
def rootedAt (r : Registry) (expr : SubExpression) : Registry :=
  { r with root := { expr with role := .root }, root_role := rfl }

variable (r) in
/-- How the references of a body are compiled when `depth` names are left for the path. -/
def compileBelow (a : Alphabet) : Nat → SubExpression → List String → CompileM Dfa
  | 0 => fun target _ => .fail (.recursiveSubExpression (target.name.getD ""))
  | depth + 1 => r.compileBody a depth

theorem compileBody_eq (a : Alphabet) (depth : Nat) (expr : SubExpression) (path : List String) :
    r.compileBody a depth expr path =
      compileExpr a (r.lookup (r.compileBelow a depth) expr.name path) expr := by
  cases depth <;> rfl

theorem exists_agrees (depth : Nat) (context : Option String) (path : List String) :
    ∃ step, Agrees r t context
      (r.lookup (r.compileBelow (Alphabet.ofTable t) depth) context path) step := by
  cases depth with
  | zero =>
    refine ⟨_, fun _ _ => rfl, fun name p => follows_lookup ?_ addsNew_refused context path name⟩
    intro target path p _
    exact CompileM.outcome_fail rfl
  | succ depth =>
    exact ⟨_, fun _ _ => rfl, fun name p =>
      follows_lookup (bodies_compileBody depth) (addsNew_scanBody depth) context path name⟩

theorem memo_rootedAt (h : Memo r t compiled) : Memo (r.rootedAt expr) t compiled := by
  induction h with
  | nil => exact .nil
  | cons hs hfresh hrefs hd _ ih => exact .cons hs hfresh hrefs hd ih

/-- The words of a body under any environment that is right for it. -/
theorem language_eq_of_solves (h : Memo r t compiled)
    (hrefs : ∀ name ∈ expr.body.refs, name.text ∈ compiled.map (·.1))
    {env : String → Language SymbolKind} (hsolves : (r.rootedAt expr).Solves t env) :
    expr.body.language t (environment t compiled) = expr.body.language t env := by
  refine Regex.language_congr t expr.body fun name hname => ?_
  have hreached : (r.rootedAt expr).Reaches name.text := .root hname
  exact ((memo_rootedAt h).environment_unique hsolves (hrefs name hname) hreached).symm

/-- What is closed for a body that has a scope of its own and was translated. -/
theorem exists_compileBody_eq {depth : Nat} {path : List String} (hscope : expr.ownScope = true)
    (hmemo : Memo r t p.compiled)
    (hbody : expr.body.toFragment (Alphabet.ofTable t) expr.name
      (r.lookup (r.compileBelow (Alphabet.ofTable t) depth) expr.name path)
      (.ofAlphabet (Alphabet.ofTable t).size) p = (.ok (n, body), p')) :
    ∃ d, (Alphabet.ofTable t).anchoredScope n body = .ok d ∧ (Alphabet.ofTable t).IsScope d ∧
      r.compileBody (Alphabet.ofTable t) depth expr path p =
        closeLogged (Alphabet.ofTable t) d p' ∧
      (∃ env, (r.rootedAt expr).Solves t env) ∧
      ∀ env, (r.rootedAt expr).Solves t env → ∀ v, v ∈ (Alphabet.ofTable t).behindStart d ↔
        ∃ w ∈ Scope.inside (expr.body.language t env), w.map (Alphabet.ofTable t).code = v := by
  obtain ⟨step, hagrees⟩ := exists_agrees (r := r) (t := t) depth expr.name path
  have hfollows := follows_toFragment hagrees expr.body (.ofAlphabet _) p rfl hmemo
  obtain ⟨hadvances, hmakes⟩ := CompileM.Outcome.of_eq_ok hfollows hbody
  have hrefs : ∀ name ∈ expr.body.refs, name.text ∈ p'.names := fun name hname =>
    hadvances.refs_mem name (Regex.body_mem_mentions.2 hname)
  obtain ⟨d, hd, hminimal, hrepresents, hloop⟩ := Alphabet.exists_anchoredScope hmakes
  refine ⟨d, hd, Alphabet.isScope_of_represents hminimal hrepresents hloop, ?_, ?_, ?_⟩
  · rw [compileBody_eq]
    unfold compileExpr
    rw [CompileM.bind_of_eq_ok hbody]
    dsimp only
    rw [if_pos hscope, compileScope_eq, hd]
    rfl
  · exact ⟨_, (memo_rootedAt hadvances.memo).solves hrefs⟩
  · intro env hsolves v
    rw [hrepresents.mem_behindStart_iff, language_eq_of_solves hadvances.memo hrefs hsolves]

end Registry

/-- Closing the scope of an automaton leaves exactly what is left of the ways through its words,
with no transition on an anchor and words that may end everywhere. Where a body with a scope of its
own is compiled, what is closed is an automaton of the words of the body that hold no start anchor
behind the one that they may begin with. -/
theorem closeScope_exact :
    (∀ (a : Alphabet) (d : Dfa), a.IsScope d → ∃ e, a.closeScope d = .ok e ∧ e.WellFormed ∧
      (∀ q mark, e.next q (a.anchorSymbol mark) = none) ∧
      (∀ q < e.size, e.isAccepting q = true) ∧
      ∀ w, w ∈ e.words ↔
        w = [] ∨ ∃ u, a.Crosses (a.behindStart d) u ∧ a.unanchored u = w) ∧
    ∀ (r : Registry) (t : ActionTable) (depth : Nat) (expr : SubExpression) (path : List String)
      (p p' : Progress) (n : Nfa) (body : Fragment), expr.ownScope = true →
      Memo r t p.compiled →
      expr.body.toFragment (Alphabet.ofTable t) expr.name
        (r.lookup (r.compileBelow (Alphabet.ofTable t) depth) expr.name path)
        (.ofAlphabet (Alphabet.ofTable t).size) p = (.ok (n, body), p') →
      ∃ d, (Alphabet.ofTable t).anchoredScope n body = .ok d ∧ (Alphabet.ofTable t).IsScope d ∧
        r.compileBody (Alphabet.ofTable t) depth expr path p =
          Registry.closeLogged (Alphabet.ofTable t) d p' ∧
        (∃ env, (r.rootedAt expr).Solves t env) ∧
        ∀ env, (r.rootedAt expr).Solves t env → ∀ v, v ∈ (Alphabet.ofTable t).behindStart d ↔
          ∃ w ∈ Scope.inside (expr.body.language t env),
            w.map (Alphabet.ofTable t).code = v := by
  constructor
  · intro a d hd
    obtain ⟨e, he, hcloses⟩ := hd.exists_closeScope
    exact ⟨e, he, hcloses.toWellFormed, hcloses.no_anchor, hcloses.accepting,
      hcloses.mem_words_iff⟩
  · intro r t depth expr path p p' n body hscope hmemo hbody
    exact Registry.exists_compileBody_eq hscope hmemo hbody

/-- The grammar `add+ !? total`. Behind the first `add` the end anchor is possible, so nothing else
is. -/
def endedSums : Registry where
  root := .unplaced .root <| .concat
    [.quantified (.literal ⟨"add", .unplaced⟩) .plus, .quantified (.anchor .stop) .optional,
      .literal ⟨"total", .unplaced⟩]
  named := []
  root_role := rfl
  names_agree := names_agree_nil
  names_nodup := List.nodup_nil

/-- The fragment of its body. -/
def endedSumsBody : CompileM (Nfa × Fragment) :=
  endedSums.root.body.toFragment (.ofTable sumActions) none
    (endedSums.lookup (endedSums.compileBelow (.ofTable sumActions) 0) none [])
    (.ofAlphabet (Alphabet.ofTable sumActions).size)

theorem closeScope_exact_endedSums : ∃ n body p' d e,
    endedSumsBody .start = (.ok (n, body), p') ∧
    (Alphabet.ofTable sumActions).anchoredScope n body = .ok d ∧
    (Alphabet.ofTable sumActions).IsScope d ∧
    endedSums.compileBody (.ofTable sumActions) 0 endedSums.root [] .start =
      Registry.closeLogged (.ofTable sumActions) d p' ∧
    (Alphabet.ofTable sumActions).closeScope d = .ok e ∧
    (∀ w, w ∈ e.words ↔ w = [] ∨
      ∃ u, (Alphabet.ofTable sumActions).Crosses ((Alphabet.ofTable sumActions).behindStart d) u ∧
        (Alphabet.ofTable sumActions).unanchored u = w) ∧
    e.accepts [0] = true ∧ e.accepts [0, 0] = false := by
  have hruns : (endedSumsBody .start).1.toOption.map (fun made => do
      let d ← (Alphabet.ofTable sumActions).anchoredScope made.1 made.2
      let e ← (Alphabet.ofTable sumActions).closeScope d
      return (e.accepts [0], e.accepts [0, 0])) = some (.ok (true, false)) := by decide +kernel
  rcases hbody : endedSumsBody .start with ⟨_ | ⟨n, body⟩, p'⟩
  · rw [hbody] at hruns
    cases hruns
  · obtain ⟨d, hd, hscope, hcompile, -, -⟩ :=
      closeScope_exact.2 endedSums sumActions 0 endedSums.root [] .start p' n body rfl .nil hbody
    obtain ⟨e, he, -, -, -, hwords⟩ := closeScope_exact.1 _ d hscope
    have haccepts : some (.ok (e.accepts [0], e.accepts [0, 0])) =
        (some (.ok (true, false)) : Option (Except Fault (Bool × Bool))) := by
      rw [← hruns, hbody]
      show _ = some (((Alphabet.ofTable sumActions).anchoredScope n body).bind fun d => _)
      rw [hd]
      show _ = some (((Alphabet.ofTable sumActions).closeScope d).bind fun e => _)
      rw [he]
      rfl
    simp only [Option.some.injEq, Except.ok.injEq, Prod.mk.injEq] at haccepts
    exact ⟨n, body, p', d, e, rfl, hd, hscope, hcompile, he, hwords, haccepts⟩

end CallChain
