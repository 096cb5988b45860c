import CallChain.Proofs.Analysis
import CallChain.Proofs.Grammar.Lossless
import CallChain.Proofs.Grammar.Mentions
import CallChain.Proofs.Grammar.Reports
import CallChain.Proofs.Suppression
import CallChain.Proofs.Visits

/-!
# What diagnostics point at

A diagnostic of an analysis points into the text of its source: at what it names, at the end if it
names nothing, or at a whole body that is never used (`points_analyze`). No two of them start at the
same place of a source, so none is suppressed by another (`filtered_analyze`).

Reports about a text are placed by the reader, and problems of a body by the names of its regular
expression, which are tokens of its text. Either way places are byte offsets of tokens.
-/

namespace CallChain

/-! ### Pointing into a text -/

/-- A diagnostic points at what it is about, in the text of a source, and back at brackets that were
left open. -/
structure Diagnostic.PointsInto (source : Source) (opened : List Token) (d : Diagnostic) :
    Prop where
  /-- The span is the place of a piece of the text. -/
  inside : ∃ piece, SpelledAt source.content piece d.span
  detail : d.isError = true → ∀ name, d.detail = some name → SpelledAt source.content name d.span
  ended : d.isError = true → d.detail = none → d.span = .emptyAt source.content.utf8ByteSize
  unused : d.kind = .unusedSubExpression → ∃ name, d.detail = some name ∧
    source.kind = .subExpression name ∧ d.span = ⟨0, source.content.utf8ByteSize⟩
  related : ∀ r ∈ d.related, ∃ token ∈ opened, r.span = token.span ∧
    SpelledAt source.content token.text r.span ∧
      (d.kind = .unclosedGroup ∧ token.text = "(" ∨
        d.kind = .unclosedSubExpressionRef ∧ token.text = "<")

/-- A diagnostic points into the text of its source, one of those that have been read. -/
def ReadTexts.Locates (texts : ReadTexts) (d : Diagnostic) : Prop :=
  ∃ source, texts.sources.get? d.source = some source ∧ ∃ text ∈ texts.all,
    text.id = d.source ∧ text.tree.text = source.content ∧
      d.PointsInto source text.tree.openBrackets

theorem spelledAt_end (content : String) :
    SpelledAt content "" (.emptyAt content.utf8ByteSize) :=
  ⟨content, "", by simp, rfl⟩

theorem spelledAt_whole (content : String) :
    SpelledAt content content ⟨0, content.utf8ByteSize⟩ :=
  ⟨"", "", by simp, by simp⟩

variable {source : Source} {opened : List Token} {d : Diagnostic}

/-- A report of the reader. -/
theorem pointsInto_of_points {id : SourceId}
    (h : Parser.Points ⟨id, source.content.utf8ByteSize⟩ (visible (tokens source.content)) opened d)
    (hopened : opened ⊆ tokens source.content) (hkind : d.kind.isSyntaxError = true) :
    d.PointsInto source opened where
  inside := by
    rcases h.place with ⟨token, htoken, hspan, -⟩ | ⟨hspan, -⟩
    · exact ⟨token.text, hspan ▸ spells_of_mem_tokens (List.mem_of_mem_filter htoken)⟩
    · exact ⟨"", hspan ▸ spelledAt_end source.content⟩
  detail _ name hname := by
    rcases h.place with ⟨token, htoken, hspan, hdetail⟩ | ⟨-, hdetail⟩
    · rw [hname] at hdetail
      cases hdetail
      exact hspan ▸ spells_of_mem_tokens (List.mem_of_mem_filter htoken)
    · rw [hname] at hdetail
      cases hdetail
  ended _ hnone := by
    rcases h.place with ⟨token, -, -, hdetail⟩ | ⟨hspan, -⟩
    · rw [hnone] at hdetail
      cases hdetail
    · exact hspan
  unused hunused := by
    rw [hunused] at hkind
    cases hkind
  related r hr := by
    obtain ⟨token, htoken, hspan, hproblem⟩ := h.related r hr
    have hmem := hopened htoken
    refine ⟨token, htoken, hspan, hspan ▸ spells_of_mem_tokens hmem, ?_⟩
    unfold SyntaxKind.unclosedProblem? at hproblem
    split at hproblem
    next hopen =>
      have hsymbol : symbolKind? '(' = some token.kind := hopen ▸ rfl
      exact .inl ⟨(Option.some.inj hproblem).symm, text_of_symbolKind? hmem hsymbol⟩
    next hopen =>
      have hsymbol : symbolKind? '<' = some token.kind := hopen ▸ rfl
      exact .inr ⟨(Option.some.inj hproblem).symm, text_of_symbolKind? hmem hsymbol⟩
    · cases hproblem

/-- A problem with a name of a body. -/
theorem pointsInto_of_isProblem {expr : SubExpression} (h : IsProblem expr d)
    (hnames : ∀ name ∈ expr.body.names, SpelledAt source.content name.text name.span) :
    d.PointsInto source opened := by
  obtain ⟨kind, name, hkind, hname, rfl⟩ := h
  have hspelled := hnames name hname
  refine ⟨⟨name.text, hspelled⟩, ?_, ?_, ?_, fun _ hr => nomatch hr⟩
  · rintro - _ ⟨⟩
    exact hspelled
  · rintro - ⟨⟩
  · intro hunused
    have hunused : kind = .unusedSubExpression := hunused
    rw [hunused] at hkind
    cases hkind

/-- A definition that is never used. -/
theorem pointsInto_unusedWarning {entry : String × SubExpression}
    (hkind : source.kind = .subExpression entry.1)
    (hspan : entry.2.span = ⟨0, source.content.utf8ByteSize⟩) :
    (Registry.unusedWarning entry).PointsInto source opened where
  inside := ⟨source.content, by
    show SpelledAt _ _ entry.2.span
    exact hspan ▸ spelledAt_whole source.content⟩
  detail herror := by cases herror
  ended herror := by cases herror
  unused _ := ⟨entry.1, rfl, hkind, hspan⟩
  related _ hr := nomatch hr

/-! ### Texts and their bodies -/

section Texts

variable {g : GrammarTexts} {texts : ReadTexts} {root out : ReadText × Diagnostics}
  {named : List (ReadText × Diagnostics)} {p : Parsed} {limit : Nat} {text : ReadText}
  {body : SubExpression} {r : Registry}

theorem ReadsAs.text_tree (h : ReadsAs limit source out p) : out.1.tree.text = source.content := by
  rw [h.tree_eq]
  exact text_of_parse h.parse_eq

theorem ReadsAs.openBrackets_subset (h : ReadsAs limit source out p) :
    out.1.tree.openBrackets ⊆ tokens source.content := by
  intro token htoken
  rw [← leaves_of_parse h.parse_eq, ← h.tree_eq]
  exact Tree.mem_leaves_of_mem_openBrackets _ htoken

theorem ReadsAs.spelled (h : ReadsAs limit source out p) {expr : Regex}
    (hexpr : out.1.regex = some expr) :
    ∀ name ∈ expr.names, SpelledAt source.content name.text name.span := by
  intro name hname
  obtain ⟨token, htoken, rfl⟩ := (h.derives hexpr).spelledIn name hname
  exact spells_of_mem_tokens (List.mem_of_mem_filter htoken)

theorem ReadsAs.nodup_names (h : ReadsAs limit source out p) {expr : Regex}
    (hexpr : out.1.regex = some expr) : (expr.names.map (·.span.start)).Nodup :=
  (h.derives hexpr).nodup_names ((pairwise_start_tokensFrom 0 source.content.toList).filter _)

theorem subExpression?_eq_some (h : text.subExpression? = some body) :
    text.regex = some body.body ∧ body.role = text.role ∧ body.source = text.id ∧
      body.span = text.tree.extent := by
  obtain ⟨expr, hexpr, rfl⟩ := Option.map_eq_some_iff.1 h
  exact ⟨hexpr, rfl, rfl, rfl⟩

/-- A body of texts that have been read is that of one of them. -/
theorem Reading.exists_text (h : Reading g texts root named) (hbodies : BodiesOf texts.all r.bodies)
    (hbody : body ∈ r.bodies) : ∃ out ∈ root :: named, ∃ source p,
      g.sourceMap.get? out.1.id = some source ∧ ReadsAs g.nestingLimit source out p ∧
        out.1.subExpression? = some body := by
  obtain ⟨i, hi, rfl⟩ := List.mem_iff_getElem.1 hbody
  have hi' : i < texts.all.length := by rwa [hbodies.length_eq]
  have htext : texts.all[i].subExpression? = some r.bodies[i] := hbodies.get hi' hi
  have hmem : texts.all[i] ∈ (root :: named).map (·.1) := h.all_eq ▸ List.getElem_mem hi'
  obtain ⟨out, hout, heq⟩ := List.mem_map.1 hmem
  obtain ⟨source, p, hsource, hreads⟩ := h.exists_source hout
  exact ⟨out, hout, source, p, hsource, hreads, by rw [heq, htext]⟩

/-- Each body has the source of its text. -/
theorem Reading.distinctSources (h : Reading g texts root named)
    (hbodies : BodiesOf texts.all r.bodies) : r.DistinctSources := by
  have hids : r.bodies.map (·.source) = texts.all.map (·.id) := by
    refine List.ext_getElem ?_ fun i hi hi' => ?_
    · rw [List.length_map, List.length_map, hbodies.length_eq]
    · rw [List.length_map] at hi hi'
      rw [List.getElem_map, List.getElem_map]
      exact (subExpression?_eq_some (hbodies.get hi' hi)).2.2.1
  rw [Registry.DistinctSources, hids, h.all_eq, List.map_map]
  exact h.ids_nodup

/-- The names of a body stand in the order of the tokens of its text. -/
theorem Reading.distinctNames (h : Reading g texts root named)
    (hbodies : BodiesOf texts.all r.bodies) : r.DistinctNames := by
  intro body hbody
  obtain ⟨out, -, source, p, -, hreads, htext⟩ := h.exists_text hbodies hbody
  exact hreads.nodup_names (subExpression?_eq_some htext).1

/-! ### Analysis -/

theorem Reading.locates (h : Reading g texts root named) (hout : out ∈ root :: named)
    (hsource : g.sourceMap.get? out.1.id = some source) (hreads : ReadsAs limit source out p)
    (hid : d.source = out.1.id) (hpoints : d.PointsInto source out.1.tree.openBrackets) :
    texts.Locates d := by
  have hmem : out.1 ∈ texts.all := by
    rw [h.all_eq]
    exact List.mem_map_of_mem hout
  refine ⟨source, ?_, out.1, hmem, hid.symm, hreads.text_tree, hpoints⟩
  rw [h.texts_eq, hid]
  exact hsource

/-- What reading reports points into the text that it is about. -/
theorem Reading.locates_of_mem (h : Reading g texts root named) (hd : d ∈ texts.diagnostics) :
    texts.Locates d := by
  have hkind := h.isSyntaxError hd
  rw [h.diagnostics_eq, List.mem_flatMap] at hd
  obtain ⟨out, hout, hd⟩ := hd
  obtain ⟨source, p, hsource, hreads⟩ := h.exists_source hout
  have hpoints := (parse_reports hreads.parse_eq).1 d (hreads.reports_eq ▸ hd)
  rw [← hreads.tree_eq] at hpoints
  exact h.locates hout hsource hreads hpoints.source_eq
    (pointsInto_of_points hpoints hreads.openBrackets_subset hkind)

/-- What resolving finds points into the text of the body that it is about. -/
theorem Reading.locates_of_mem_resolve (h : Reading g texts root named)
    (hbodies : BodiesOf texts.all r.bodies) (hd : d ∈ (r.resolve g.actions).diagnostics) :
    texts.Locates d := by
  rcases Registry.about_of_mem (h.distinctSources hbodies) (h.distinctNames hbodies) hd with
    ⟨expr, hexpr, hproblem⟩ | ⟨entry, hentry, rfl⟩
  · obtain ⟨out, hout, source, p, hsource, hreads, htext⟩ := h.exists_text hbodies hexpr
    obtain ⟨hregex, -, hid, -⟩ := subExpression?_eq_some htext
    exact h.locates hout hsource hreads (hproblem.source_eq.trans hid)
      (pointsInto_of_isProblem hproblem (hreads.spelled hregex))
  · have hbody : entry.2 ∈ r.bodies := List.mem_cons_of_mem _ (List.mem_map_of_mem hentry)
    obtain ⟨out, hout, source, p, hsource, hreads, htext⟩ := h.exists_text hbodies hbody
    obtain ⟨-, hrole, hid, hspan⟩ := subExpression?_eq_some htext
    apply h.locates hout hsource hreads hid
    apply pointsInto_unusedWarning
    -- a body of that name was read from the source of that name
    · have hname := r.names_agree entry hentry
      rw [SubExpression.name, hrole] at hname
      rw [hreads.kind_eq]
      split at hname
      · cases hname
      next hnamed =>
        cases hname
        rw [hnamed]
        rfl
    · rw [hspan, Tree.extent, hreads.text_tree]

end Texts

/-- Every diagnostic of an analysis points into the text of its source: an error at the text that it
is about or, if it is about none, at the end, and a warning at the whole body of the definition that
it names. What it points back at are brackets that are not closed. -/
theorem points_analyze {g : GrammarTexts} {texts : ReadTexts} (h : g.read = .ok texts) :
    texts.sources = g.sourceMap ∧ ∀ d ∈ texts.analyze.diagnostics, texts.Locates d := by
  obtain ⟨root, named, hreading⟩ := exists_reading h
  refine ⟨by rw [hreading.texts_eq], fun d hd => ?_⟩
  -- what is reported was found by the reader, or by resolving what it has read
  rcases hreading.diagnostics_analyze with hall | ⟨r, hbodies, hall⟩
  · exact hreading.locates_of_mem (hall ▸ hd)
  · exact hreading.locates_of_mem_resolve hbodies (hall ▸ hd)

/-- A bar before the root, and a definition that is a group with a bar before it and a mistake in it
and that is not closed. -/
def openTexts : GrammarTexts :=
  ⟨Registry.oneAction, "| x", [⟨"spare", "| (x #", false⟩], none, 8⟩

theorem points_analyze_openTexts : ∃ texts, openTexts.read = .ok texts ∧
    texts.analyze.diagnostics.map (fun d => (d.source.index, d.span, d.related.map (·.span))) =
      [(0, ⟨0, 1⟩, []), (1, ⟨0, 1⟩, []), (1, ⟨5, 6⟩, [⟨2, 3⟩])] ∧
    ∀ d ∈ texts.analyze.diagnostics, texts.Locates d := by
  have hread : openTexts.read.toOption.map (fun texts => texts.analyze.diagnostics.map
      fun d => (d.source.index, d.span, d.related.map (·.span))) =
        some [(0, ⟨0, 1⟩, []), (1, ⟨0, 1⟩, []), (1, ⟨5, 6⟩, [⟨2, 3⟩])] := by
    decide +kernel
  obtain ⟨texts, hread, hall⟩ := exists_of_toOption_map hread
  exact ⟨texts, hread, hall, (points_analyze hread).2⟩

/-! ### Nothing is suppressed -/

namespace Diagnostics

variable {ds : Diagnostics}

/-- Where no two diagnostics start at the same place, all remain. -/
theorem filtered_eq_self (h : (ds.map Diagnostic.place).Nodup) : filtered ds = ds := by
  rw [filtered_eq_filter, List.filter_eq_self]
  intro d hd
  refine decide_eq_true fun e he hhides => ?_
  have hsame : e = d := List.inj_on_of_nodup_map h he hd (Prod.ext hhides.1 hhides.2.1)
  rw [hsame] at hhides
  exact Nat.lt_irrefl _ hhides.2.2

end Diagnostics

section Texts

variable {g : GrammarTexts} {texts : ReadTexts} {root out : ReadText × Diagnostics}
  {named : List (ReadText × Diagnostics)} {p : Parsed} {limit : Nat}

theorem ReadsAs.nodup_place (h : ReadsAs limit source out p) :
    (out.2.map Diagnostic.place).Nodup ∧ ∀ d ∈ out.2, d.source = out.1.id := by
  obtain ⟨hpoints, hincreasing, -⟩ := parse_reports h.parse_eq
  rw [h.reports_eq]
  refine ⟨List.Nodup.of_map Prod.snd ?_, fun d hd => (hpoints d hd).source_eq⟩
  rw [List.map_map, List.Nodup, List.pairwise_map]
  exact hincreasing.imp Nat.ne_of_lt

/-- The reports about a text start further and further right, and texts have different sources. -/
theorem Reading.nodup_place (h : Reading g texts root named) :
    (texts.diagnostics.map Diagnostic.place).Nodup := by
  rw [h.diagnostics_eq, List.map_flatMap, List.nodup_flatMap]
  constructor
  · intro out hout
    obtain ⟨source, p, -, hreads⟩ := h.exists_source hout
    exact hreads.nodup_place.1
  · -- places of two texts differ in the source
    have hids : (root :: named).Pairwise (·.1.id ≠ ·.1.id) := List.pairwise_map.1 h.ids_nodup
    refine hids.imp_of_mem fun {out out'} hout hout' hne place hplace hplace' => hne ?_
    obtain ⟨source, p, -, hreads⟩ := h.exists_source hout
    obtain ⟨source', p', -, hreads'⟩ := h.exists_source hout'
    obtain ⟨d, hd, rfl⟩ := List.mem_map.1 hplace
    obtain ⟨d', hd', heq⟩ := List.mem_map.1 hplace'
    rw [← hreads.nodup_place.2 d hd, ← hreads'.nodup_place.2 d' hd']
    exact (Prod.mk.inj heq).1.symm

/-- No two diagnostics of an analysis start at the same place. -/
theorem Reading.nodup_place_analyze (h : Reading g texts root named) :
    (texts.analyze.diagnostics.map Diagnostic.place).Nodup := by
  rcases h.diagnostics_analyze with hall | ⟨r, hbodies, hall⟩
  · rw [hall]
    exact h.nodup_place
  · rw [hall]
    exact Registry.nodup_place_resolve (h.distinctSources hbodies) (h.distinctNames hbodies)

end Texts

/-- No diagnostic is hidden. The reports about a text start further and further right, and each
token that was set aside has one. The diagnostics of an analysis start at different places, so
filtering keeps all of them, in their order. -/
theorem filtered_analyze :
    (∀ text source limit p, parse text source limit = .ok p →
      p.diagnostics.Pairwise (·.span.start < ·.span.start) ∧
      ∀ token ∈ p.root.misplaced, ∃ d ∈ p.diagnostics, d.span.start = token.start) ∧
    ∀ (g : GrammarTexts) texts, g.read = .ok texts →
      (texts.analyze.diagnostics.map Diagnostic.place).Nodup ∧
      Diagnostics.filtered texts.analyze.diagnostics = texts.analyze.diagnostics := by
  refine ⟨fun text source limit p h => (parse_reports h).2, fun g texts h => ?_⟩
  obtain ⟨root, named, hreading⟩ := exists_reading h
  have hnodup := hreading.nodup_place_analyze
  exact ⟨hnodup, Diagnostics.filtered_eq_self hnodup⟩

theorem filtered_analyze_openTexts :
    (∃ p, parse "| (x #" ⟨1⟩ 8 = .ok p ∧ p.root.misplaced.map (·.text) = ["#"] ∧
      ∀ token ∈ p.root.misplaced, ∃ d ∈ p.diagnostics, d.span.start = token.start) ∧
    ∃ texts, openTexts.read = .ok texts ∧ texts.analyze.diagnostics.length = 3 ∧
      Diagnostics.filtered texts.analyze.diagnostics = texts.analyze.diagnostics := by
  have hparse : (parse "| (x #" ⟨1⟩ 8).toOption.map (·.root.misplaced.map (·.text)) =
      some ["#"] := by decide +kernel
  have hread : openTexts.read.toOption.map (·.analyze.diagnostics.length) = some 3 := by
    decide +kernel
  obtain ⟨p, hparse, hmisplaced⟩ := exists_of_toOption_map hparse
  obtain ⟨texts, hread, hlength⟩ := exists_of_toOption_map hread
  exact ⟨⟨p, hparse, hmisplaced, (filtered_analyze.1 _ _ _ _ hparse).2⟩, texts, hread, hlength,
    (filtered_analyze.2 _ _ hread).2⟩

end CallChain
