import CallChain.Proofs.Resolution
import CallChain.Proofs.Texts

/-!
# How the stages end

Reading decides whether there is anything to analyze: a syntax error in one text ends all, and
without one there is a registry. Resolving it decides whether there is anything to compile, and what
is compiled then does not fail.

* `stages`: the three ways through the stages.
* `compile_analyze`: what the last stage answers.
-/

namespace CallChain

variable {g : GrammarTexts} {texts : ReadTexts} {root : ReadText × Diagnostics}
  {named : List (ReadText × Diagnostics)}

/-- The ways through analysis and compilation. -/
inductive Stages (g : GrammarTexts) (texts : ReadTexts) : Prop where
  /-- A source has a syntax error. -/
  | misspelled (hbad : g.IsMisspelled) (hregistry : texts.analyze.registry = none)
      (herrors : texts.analyze.diagnostics.hasErrors = true)
      (hcompile : texts.analyze.compile.1 = .error (.misspelled texts.analyze.diagnostics))
  /-- Resolving the names finds an error. -/
  | meaningless (hgood : ¬ g.IsMisspelled) {r : Registry}
      (hregistry : texts.analyze.registry = some r)
      (hdiagnostics : texts.analyze.diagnostics = (r.resolve g.actions).diagnostics)
      (herrors : (r.resolve g.actions).diagnostics.hasErrors = true)
      (hcompile : texts.analyze.compile.1 = .error (.meaningless texts.analyze.diagnostics))
  /-- Resolving the names finds none. -/
  | compiled (hgood : ¬ g.IsMisspelled) {r : Registry} {c : Compiled}
      (hregistry : texts.analyze.registry = some r)
      (hdiagnostics : texts.analyze.diagnostics = (r.resolve g.actions).diagnostics)
      (herrors : (r.resolve g.actions).diagnostics.hasErrors = false)
      (hcompile : texts.analyze.compile.1 = .ok c)
      (hkept : c.diagnostics = texts.analyze.diagnostics)

theorem Reading.hasErrors_of_isMisspelled (h : Reading g texts root named)
    (hbad : g.IsMisspelled) : texts.diagnostics.hasErrors = true := by
  obtain ⟨d, hd⟩ := h.isMisspelled_iff.1 hbad
  exact List.any_eq_true.2 ⟨d, hd, Diagnostic.isError_of_isSyntaxError (h.isSyntaxError hd)⟩

/-- With a syntax error there is nothing but what reading reported. -/
theorem Reading.analyze_of_isMisspelled (h : Reading g texts root named) (hbad : g.IsMisspelled) :
    texts.analyze = ⟨texts, none, texts.diagnostics, []⟩ :=
  if_pos (h.hasErrors_of_isMisspelled hbad)

/-- Without a syntax error the names of a registry are resolved. -/
theorem Reading.exists_analyze (h : Reading g texts root named) (hgood : ¬ g.IsMisspelled) :
    ∃ r, r.names = g.named.map (·.name) ∧ BodiesOf texts.all r.bodies ∧ texts.analyze =
      ⟨texts, some r, (r.resolve g.actions).diagnostics, (r.resolve g.actions).unused⟩ := by
  have hclean := h.diagnostics_eq_nil hgood
  obtain ⟨r, hr, hbodies, hnames⟩ := h.exists_registry hclean
  have hactions : texts.actions = g.actions := by rw [h.texts_eq]
  refine ⟨r, hnames, hbodies, ?_⟩
  rw [ReadTexts.analyze, hclean, hr, hactions]
  rfl

/-- Texts that have been read go one of the ways. -/
theorem Reading.stages (h : Reading g texts root named) : Stages g texts := by
  by_cases hgood : g.IsMisspelled
  · obtain ⟨d, hd⟩ := h.isMisspelled_iff.1 hgood
    have hkind := h.isSyntaxError hd
    have herror := Diagnostic.isError_of_isSyntaxError hkind
    have hanalyze := h.analyze_of_isMisspelled hgood
    have herrors := h.hasErrors_of_isMisspelled hgood
    have hany : texts.diagnostics.any (fun d => d.isError && d.kind.isSyntaxError) = true :=
      List.any_eq_true.2 ⟨d, hd, by rw [herror, hkind]; rfl⟩
    refine .misspelled hgood ?_ ?_ ?_
    · rw [hanalyze]
    · rw [hanalyze]
      exact herrors
    · rw [hanalyze, Analysis.compile, if_pos hany]
  · obtain ⟨r, -, -, hanalyze⟩ := h.exists_analyze hgood
    have hactions : texts.actions = g.actions := by rw [h.texts_eq]
    have hany : (r.resolve g.actions).diagnostics.any
        (fun d => d.isError && d.kind.isSyntaxError) = false := by
      rw [List.any_eq_false]
      intro d hd
      rw [Registry.isSyntaxError_eq_false_of_mem hd, Bool.and_false]
      decide
    cases herrors : (r.resolve g.actions).diagnostics.hasErrors with
    | true =>
      refine .meaningless hgood (r := r) ?_ ?_ herrors ?_
      · rw [hanalyze]
      · rw [hanalyze]
      · rw [hanalyze, Analysis.compile, hany, if_neg (by decide), if_pos herrors]
    | false =>
      have hscan := Registry.hasErrors_eq_false_iff.1 herrors
      rcases compile_cases (r := r) (t := g.actions) with ⟨⟨A, hA⟩, -⟩ | ⟨e, -, hfails⟩
      · have hcompile : texts.analyze.compile.1 =
            .ok ⟨A, (r.resolve g.actions).diagnostics, texts.sources⟩ := by
          rw [hanalyze, Analysis.compile, hany, if_neg (by decide), if_neg (by simp [herrors])]
          dsimp only
          rw [hactions]
          split
          next heq =>
            rw [heq] at hA
            cases hA
          next heq =>
            rw [heq] at hA
            cases hA
            rfl
        refine .compiled hgood (r := r) ?_ ?_ herrors hcompile ?_ <;> rw [hanalyze]
      · obtain ⟨done, hdone⟩ := hscan
        rw [hdone] at hfails
        cases hfails

/-- What an analysis reports was found while reading, or while resolving. -/
theorem Reading.diagnostics_analyze (h : Reading g texts root named) :
    texts.analyze.diagnostics = texts.diagnostics ∨
      ∃ r : Registry, BodiesOf texts.all r.bodies ∧
        texts.analyze.diagnostics = (r.resolve g.actions).diagnostics := by
  by_cases hbad : g.IsMisspelled
  · exact .inl (by rw [h.analyze_of_isMisspelled hbad])
  · obtain ⟨r, -, hbodies, hanalyze⟩ := h.exists_analyze hbad
    exact .inr ⟨r, hbodies, by rw [hanalyze]⟩

/-- What is left of an analysis without errors: a warning about each definition that is not used,
in definition order. -/
theorem Reading.warnings (h : Reading g texts root named) (hgood : ¬ g.IsMisspelled)
    (hvalid : texts.analyze.diagnostics.hasErrors = false) :
    texts.analyze.diagnostics.filter (·.isWarning) = texts.analyze.diagnostics ∧
      texts.analyze.diagnostics.map (fun d => (d.kind, d.detail)) =
        texts.analyze.unused.map (fun name => (.unusedSubExpression, some name)) ∧
      texts.analyze.unused.Sublist (g.named.map (·.name)) := by
  obtain ⟨r, hnames, -, hanalyze⟩ := h.exists_analyze hgood
  rw [hanalyze] at hvalid ⊢
  obtain ⟨done, hscan⟩ := Registry.hasErrors_eq_false_iff.1 hvalid
  rw [Registry.resolve_of_scan hscan, ← hnames]
  refine ⟨?_, ?_, List.filter_sublist.map _⟩
  · rw [List.filter_eq_self]
    intro d hd
    obtain ⟨entry, -, rfl⟩ := List.mem_map.1 hd
    rfl
  · dsimp only
    rw [List.map_map, List.map_map]
    rfl

theorem Analysis.wellFormed_of_compile {a : Analysis} {c : Compiled} (h : a.compile.1 = .ok c) :
    c.automaton.WellFormed := by
  unfold Analysis.compile at h
  split at h
  · cases h
  · split at h
    · cases h
    · split at h
      · cases h
      · split at h
        · cases h
        next hcompile =>
          cases h
          exact wellFormed_of_compile_eq_ok (congrArg Prod.fst hcompile)

theorem Reading.not_isMisspelled (h : Reading g texts root named)
    (hvalid : texts.analyze.isValid = true) : ¬ g.IsMisspelled := by
  intro hbad
  rw [h.analyze_of_isMisspelled hbad, Analysis.isValid, h.hasErrors_of_isMisspelled hbad] at hvalid
  cases hvalid

/-- A valid analysis compiles. -/
theorem Reading.exists_compile (h : Reading g texts root named)
    (hvalid : texts.analyze.isValid = true) : ∃ c, texts.analyze.compile.1 = .ok c := by
  rw [Analysis.isValid, Bool.not_eq_true'] at hvalid
  cases h.stages with
  | misspelled _ _ herrors _ =>
    rw [hvalid] at herrors
    cases herrors
  | meaningless _ _ hdiagnostics herrors _ =>
    rw [← hdiagnostics, hvalid] at herrors
    cases herrors
  | compiled _ _ _ _ hcompile _ => exact ⟨_, hcompile⟩

/-- The warnings of a valid analysis are about what is not used. -/
theorem Reading.hasWarnings_iff (h : Reading g texts root named)
    (hvalid : texts.analyze.isValid = true) :
    texts.analyze.diagnostics.hasWarnings = true ↔ texts.analyze.unused ≠ [] := by
  have hgood := h.not_isMisspelled hvalid
  rw [Analysis.isValid, Bool.not_eq_true'] at hvalid
  obtain ⟨hwarnings, hunused, -⟩ := h.warnings hgood hvalid
  have hlength : texts.analyze.diagnostics.length = texts.analyze.unused.length := by
    simpa using congrArg List.length hunused
  rw [List.filter_eq_self] at hwarnings
  rw [Diagnostics.hasWarnings, List.any_eq_true, ← List.length_pos_iff_ne_nil, ← hlength,
    List.length_pos_iff_exists_mem]
  exact ⟨fun ⟨d, hd, _⟩ => ⟨d, hd⟩, fun ⟨d, hd⟩ => ⟨d, hd, hwarnings d hd⟩⟩

/-- Of texts that have been read, compiling what has been analyzed succeeds exactly if the analysis
is valid. It fails with the diagnostics as misspelled exactly if a source has a syntax error, as
meaningless exactly if there is none and resolving the names finds an error, and in no other way.
Where it succeeds, every text has a regular expression, and the diagnostics are the warnings, one
about each definition that is not used, in definition order. -/
theorem compile_analyze (h : g.read = .ok texts) :
    ((∃ c, texts.analyze.compile.1 = .ok c) ↔ texts.analyze.isValid = true) ∧
    (texts.analyze.compile.1 = .error (.misspelled texts.analyze.diagnostics) ↔ g.IsMisspelled) ∧
    (texts.analyze.compile.1 = .error (.meaningless texts.analyze.diagnostics) ↔
      ¬ g.IsMisspelled ∧ ∃ r, texts.analyze.registry = some r ∧
        (r.resolve g.actions).diagnostics.hasErrors = true) ∧
    (∀ e, texts.analyze.compile.1 = .error e →
      e = .misspelled texts.analyze.diagnostics ∨ e = .meaningless texts.analyze.diagnostics) ∧
    ∀ c, texts.analyze.compile.1 = .ok c →
      (∀ text ∈ texts.all, text.regex.isSome = true) ∧
      c.diagnostics = texts.analyze.diagnostics.filter (·.isWarning) ∧
      c.diagnostics.map (fun d => (d.kind, d.detail)) =
        texts.analyze.unused.map (fun name => (.unusedSubExpression, some name)) ∧
      texts.analyze.unused.Sublist (g.named.map (·.name)) := by
  obtain ⟨root, named, hreading⟩ := exists_reading h
  cases hreading.stages with
  | misspelled hbad hregistry herrors hcompile =>
    rw [hcompile]
    refine ⟨?_, ?_, ?_, ?_, ?_⟩
    · simp [Analysis.isValid, herrors]
    · simp [hbad]
    · simp [hbad]
    · rintro _ ⟨⟩
      exact .inl rfl
    · rintro c ⟨⟩
  | meaningless hgood hregistry hdiagnostics herrors hcompile =>
    rw [hcompile]
    refine ⟨?_, ?_, ?_, ?_, ?_⟩
    · simp [Analysis.isValid, hdiagnostics, herrors]
    · simp [hgood]
    · simp [hgood, hregistry, herrors]
    · rintro _ ⟨⟩
      exact .inr rfl
    · rintro c ⟨⟩
  | compiled hgood hregistry hdiagnostics herrors hcompile hkept =>
    have hvalid : texts.analyze.diagnostics.hasErrors = false := by rw [hdiagnostics, herrors]
    obtain ⟨hwarnings, hunused, hsublist⟩ := hreading.warnings hgood hvalid
    rw [hcompile]
    refine ⟨?_, ?_, ?_, ?_, ?_⟩
    · simp [Analysis.isValid, hvalid]
    · simp [hgood]
    · simp [hregistry, herrors]
    · rintro e ⟨⟩
    · rintro c ⟨⟩
      refine ⟨hreading.isSome_regex (hreading.diagnostics_eq_nil hgood), ?_, ?_, hsublist⟩
      · rw [hkept, hwarnings]
      · rw [hkept, hunused]

/-- The grammar `x` with a definition `spare = x` that nothing refers to. -/
def spareTexts : GrammarTexts := ⟨Registry.oneAction, "x", [⟨"spare", "x", false⟩], none, 8⟩

theorem compile_analyze_spareTexts : ∃ texts, spareTexts.read = .ok texts ∧
    ∃ c, texts.analyze.compile.1 = .ok c ∧
      c.diagnostics.map (fun d => (d.kind, d.detail)) =
        [(.unusedSubExpression, some "spare")] := by
  have hvalid : spareTexts.read.toOption.map
      (fun texts => (texts.analyze.isValid, texts.analyze.unused)) = some (true, ["spare"]) := by
    decide +kernel
  obtain ⟨texts, hread, hboth⟩ := exists_of_toOption_map hvalid
  obtain ⟨hvalid, hunused⟩ := Prod.mk.inj hboth
  obtain ⟨hiff, -, -, -, hcompiled⟩ := compile_analyze hread
  obtain ⟨c, hc⟩ := hiff.2 hvalid
  obtain ⟨-, -, hwarnings, -⟩ := hcompiled c hc
  refine ⟨texts, hread, c, hc, ?_⟩
  rw [hwarnings, hunused]
  rfl

end CallChain
