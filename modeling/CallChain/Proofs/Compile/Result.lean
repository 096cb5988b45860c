import CallChain.Proofs.Compile.Assembly
import CallChain.Proofs.Compile.Body

/-!
# What a compilation results in

A compilation ends like its scan: with the problem of the scan, or with the chain automaton of an
automaton that represents the body of the root. It never ends with a fault.

* `compile_cases`: how a compilation ends.
* `compile_chains`: what the automaton of a compilation offers.
-/

namespace CallChain

open CompileM

variable {r : Registry} {t : ActionTable} {A : Automaton}

/-! ### The steps of a compilation -/

/-- A loop whose body only writes to the log. -/
theorem outcome_forIn {α : Type} {f : α → PUnit → CompileM (ForInStep PUnit)} {xs : List α}
    {p : Progress} {fails : CompileError → Prop}
    (h : ∀ x ∈ xs, ∀ p, (f x ⟨⟩).Outcome p
      (fun step p' => step = .yield ⟨⟩ ∧ p'.compiled = p.compiled) fails) :
    (forIn xs PUnit.unit f).Outcome p (fun _ p' => p'.compiled = p.compiled) fails := by
  induction xs generalizing p with
  | nil => exact outcome_pure rfl
  | cons x xs ih =>
    rw [List.forall_mem_cons] at h
    rw [List.forIn_cons]
    refine Outcome.bind ((h.1 p).mono ?_ fun _ h => h)
    rintro step p' ⟨rfl, hcompiled⟩
    refine (ih h.2).mono ?_ fun _ h => h
    intro _ p'' hcompiled'
    exact hcompiled'.trans hcompiled

theorem outcome_describeActions {p : Progress} {fails : CompileError → Prop} {a : Alphabet} :
    (Registry.describeActions a t).Outcome p (fun _ p' => p'.compiled = p.compiled) fails := by
  refine Outcome.bind ((outcome_forIn ?_).mono ?_ fun _ h => h)
  · intro id hid p
    have hmem : id ∈ t.ids := by
      have hglobal := List.mem_of_mem_filter hid
      exact ActionTable.mem_ids_of_holds (ActionTable.mem_globals.1 hglobal)
    obtain ⟨action, hget⟩ := ActionTable.mem_ids.1 hmem
    have hlabel : t.label id = .ok (t.labelOf action) := by
      rw [ActionTable.label, ActionTable.get, hget]
      rfl
    refine Outcome.bind (outcome_checked hlabel ?_)
    exact Outcome.bind (outcome_note fun log => outcome_pure ⟨rfl, rfl⟩)
  · intro _ p' hcompiled
    exact outcome_note fun log => hcompiled

/-- A compilation ends like its scan. -/
theorem outcome_compileSteps : (r.compileSteps t).Outcome Progress.start
    (fun A p' => r.scan t = .ok p'.names ∧ Memo r t p'.compiled ∧
      (∀ name ∈ r.root.body.refs, name.text ∈ p'.names) ∧
      ∃ d, (Alphabet.ofTable t).Represents d (r.root.language t (environment t p'.compiled)) ∧
        A = (Alphabet.chainAutomaton t d).canonical)
    fun e => r.scan t = .error e := by
  unfold Registry.compileSteps
  dsimp only
  refine Outcome.bind (outcome_describeActions.mono ?_ fun _ h => h)
  intro _ p hcompiled
  have hempty : p.compiled = [] := hcompiled
  have hnames : p.names = [] := by rw [Progress.names, hempty]; rfl
  have hbody := bodies_compileBody (r := r) (t := t) r.size r.root [] p (hempty ▸ .nil)
  rw [hnames] at hbody
  refine Outcome.bind (hbody.mono ?_ fun _ h => h)
  rintro d p' ⟨hscan, hmemo, -, hrefs, hd⟩
  refine Outcome.bind (outcome_note fun log => ?_)
  have hsaturated := Alphabet.saturated_eq hd.toWellFormed hd.alphabet_eq
  refine Outcome.bind (outcome_checked hsaturated ?_)
  refine Outcome.bind (outcome_note fun log => ?_)
  refine Outcome.bind (outcome_checked
    (Alphabet.assemble_eq (Alphabet.minimal_saturate hd.toWellFormed).toWellFormed) ?_)
  refine Outcome.bind (outcome_note fun log => ?_)
  exact outcome_pure ⟨hscan, hmemo, hrefs, d, hd, rfl⟩

/-- How a compilation ends. -/
theorem compile_cases : (∃ A, (r.compile t).1 = .ok A) ∧ (∃ done, r.scan t = .ok done) ∨
    ∃ e, (r.compile t).1 = .error (.problem e) ∧ r.scan t = .error e := by
  have h : ∀ result, ((r.compileSteps t) Progress.start).1 = result →
      (∃ A, result = .ok A) ∧ (∃ done, r.scan t = .ok done) ∨
        ∃ e, result = .error (.problem e) ∧ r.scan t = .error e := by
    rintro _ rfl
    refine outcome_of_forall (P := fun result => (∃ A, result = .ok A) ∧
      (∃ done, r.scan t = .ok done) ∨ ∃ e, result = .error (.problem e) ∧ r.scan t = .error e)
      (outcome_compileSteps.mono ?_ ?_)
    · rintro A p ⟨hscan, -⟩
      exact .inl ⟨⟨A, rfl⟩, p.names, hscan⟩
    · exact fun e he => .inr ⟨e, rfl, he⟩
  exact h _ rfl

/-- What a compilation that succeeds has made. -/
theorem exists_of_compile_eq_ok (h : (r.compile t).1 = .ok A) :
    ∃ compiled d, Memo r t compiled ∧
      (∀ name ∈ r.root.body.refs, name.text ∈ compiled.map (·.1)) ∧
      (Alphabet.ofTable t).Represents d (r.root.language t (environment t compiled)) ∧
      A = (Alphabet.chainAutomaton t d).canonical := by
  have houtcome := (outcome_compileSteps (r := r) (t := t)).ends
  have hrun : ((r.compileSteps t) Progress.start).1 = .ok A := h
  split at houtcome
  next A' p heq =>
    rw [heq] at hrun
    cases hrun
    obtain ⟨-, hmemo, hrefs, d, hd, rfl⟩ := houtcome
    exact ⟨p.compiled, d, hmemo, hrefs, hd, rfl⟩
  next heq =>
    rw [heq] at hrun
    cases hrun
  next => exact houtcome.elim

theorem wellFormed_of_compile_eq_ok (h : (r.compile t).1 = .ok A) : A.WellFormed := by
  obtain ⟨compiled, d, -, -, -, rfl⟩ := exists_of_compile_eq_ok h
  exact Automaton.wellFormed_canonical Alphabet.wellFormed_assembled

/-! ### Chains -/

theorem language_root (env : String → Language SymbolKind) :
    r.root.language t env = Scope.close (r.root.body.language t env) := by
  rw [SubExpression.language, SubExpression.ownScope, r.root_role]
  rfl

theorem isChain_root (env : String → Language SymbolKind) : IsChain (r.root.language t env) := by
  rw [language_root]
  exact Scope.isChain_close _

/-- Every right environment gives the root the same words. -/
theorem Memo.language_root_eq {compiled : List (String × Dfa)} (h : Memo r t compiled)
    (hrefs : ∀ name ∈ r.root.body.refs, name.text ∈ compiled.map (·.1))
    {env : String → Language SymbolKind} (hsolves : r.Solves t env) :
    r.root.language t env = r.root.language t (environment t compiled) :=
  SubExpression.language_congr fun name hname =>
    h.environment_unique hsolves (hrefs name hname) (.root hname)

/-- The automaton of a compilation offers after any actions what the closed body of the root
allows: there are environments that give each name that is reached the words of its body, and with
every such environment the actions offered are those of the position that the actions lead to. -/
theorem compile_chains (h : (r.compile t).1 = .ok A) :
    (∃ env, r.Solves t env) ∧
      ∀ env, r.Solves t env → ∀ actions, ∃ result,
        A.chain (.state A.initial) actions = .ok result ∧
        result.map A.offers = (Position.afterAll t (r.root.language t env) actions).map
          (Position.offers t (r.root.language t env)) ∧
        (result = some .terminal ↔
          Position.afterAll t (r.root.language t env) actions = some .ended) := by
  obtain ⟨compiled, d, hmemo, hrefs, hd, rfl⟩ := exists_of_compile_eq_ok h
  refine ⟨⟨_, hmemo.solves hrefs⟩, fun env hsolves actions => ?_⟩
  rw [← hmemo.language_root_eq hrefs hsolves] at hd
  have hchain := isChain_root (r := r) (t := t) env
  generalize r.root.language t env = L at hd hchain
  have hwf := Alphabet.wellFormed_assembled (t := t) (d := (Alphabet.ofTable t).saturate t d)
  have hcanonical := Automaton.wellFormed_canonical hwf
  have hinitial := Automaton.foldlM_taken_canonical hwf Automaton.initial_mem_order actions
  rw [Automaton.place_initial] at hinitial
  refine ⟨_, Automaton.chain_eq hcanonical (s := .state _) hcanonical.initial actions, ?_⟩
  have hstart : (Alphabet.chainAutomaton t d).canonical.initial = ⟨0⟩ := rfl
  rw [hstart, hinitial]
  rcases (Alphabet.matches_initial (t := t) hd.toWellFormed).foldlM hd hchain actions with
    ⟨hpos, hs⟩ | ⟨pos, s, hpos, hs, hmatches⟩
  · have hnone : actions.foldlM (Alphabet.chainAutomaton t d).taken
        (.state (Alphabet.chainAutomaton t d).initial) = none := hs
    rw [Position.afterAll, hpos, hnone]
    exact ⟨rfl, by simp⟩
  · have hplaced : ∀ q, s = .state q → q ∈ (Alphabet.chainAutomaton t d).order := by
      rintro q rfl
      exact Automaton.mem_order_of_foldlM hwf Automaton.initial_mem_order hs
    have hsome : actions.foldlM (Alphabet.chainAutomaton t d).taken
        (.state (Alphabet.chainAutomaton t d).initial) = some s := hs
    rw [Position.afterAll, hpos, hsome]
    refine ⟨congrArg some ?_, ?_⟩
    · ext id
      rw [Automaton.mem_offers_iff (Automaton.exists_rename_place hplaced),
        Automaton.taken_canonical hwf hplaced, ← hmatches.offers_iff hd hchain]
      simp
    · cases hmatches <;> simp [Successor.rename]

/-- The actions of a sum. -/
def sumActions : ActionTable :=
  ⟨[.ofName "add", .ofName "total"], [⟨0⟩, ⟨1⟩], by decide, by decide⟩

/-- The grammar `add* total`. -/
def sums : Registry where
  root := .unplaced .root <| .concat
    [.quantified (.literal ⟨"add", .unplaced⟩) .star, .literal ⟨"total", .unplaced⟩]
  named := []
  root_role := rfl
  names_agree := names_agree_nil
  names_nodup := List.nodup_nil

theorem compile_chains_sums : ∃ A, (sums.compile sumActions).1 = .ok A ∧
    A.states = #[[(⟨0⟩, .state ⟨0⟩), (⟨1⟩, .terminal)]] ∧
      ∀ env, sums.Solves sumActions env → ∀ actions, ∃ result,
        A.chain (.state A.initial) actions = .ok result ∧
        result.map A.offers = (Position.afterAll sumActions (sums.root.language sumActions env)
          actions).map (Position.offers sumActions (sums.root.language sumActions env)) := by
  have hstates : (sums.compile sumActions).1.map Automaton.states =
      .ok #[[(⟨0⟩, .state ⟨0⟩), (⟨1⟩, .terminal)]] := by decide +kernel
  cases hcompile : (sums.compile sumActions).1 with
  | error e =>
    rw [hcompile] at hstates
    cases hstates
  | ok A =>
    rw [hcompile] at hstates
    refine ⟨A, rfl, Except.ok.inj hstates, fun env hsolves actions => ?_⟩
    obtain ⟨result, hresult, hoffers, -⟩ := (compile_chains hcompile).2 env hsolves actions
    exact ⟨result, hresult, hoffers⟩

end CallChain
