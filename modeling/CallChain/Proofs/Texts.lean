import CallChain.Analysis
import CallChain.Proofs.Grammar.Nesting
import CallChain.Proofs.Grammar.RoundTrip
import CallChain.Proofs.Lists

/-!
# Texts that have been read

Reading a definition has one outcome for each of its sources. A text about which nothing is reported
has a regular expression, so texts without reports have a registry, with their names in definition
order.

* `exists_reading`: the outcomes.
* `Reading.exists_registry`: the registry of texts without reports.
-/

namespace CallChain

/-- A source of the definition has a syntax error. -/
def GrammarTexts.IsMisspelled (g : GrammarTexts) : Prop :=
  ∃ id source parsed, g.sourceMap.get? id = some source ∧
    parse source.content id g.nestingLimit = .ok parsed ∧
    ∃ d ∈ parsed.diagnostics, d.isError = true ∧ d.kind.isSyntaxError = true

theorem DiagnosticKind.severity_of_isSyntaxError {k : DiagnosticKind}
    (h : k.isSyntaxError = true) : k.severity = .error := by
  revert h
  cases k <;> decide

theorem Diagnostic.isError_of_isSyntaxError {d : Diagnostic} (h : d.kind.isSyntaxError = true) :
    d.isError = true := by
  rw [isError, severity, DiagnosticKind.severity_of_isSyntaxError h]
  rfl

/-! ### Reading one text -/

/-- The kind of the source that a text with some role is the content of. -/
def Role.sourceKind : Role → SourceKind
  | root => .root
  | named name _ => .subExpression name

/-- A text as reading makes it of a source, and what is reported about it. -/
structure ReadsAs (limit : Nat) (source : Source) (out : ReadText × Diagnostics) (p : Parsed) :
    Prop where
  kind_eq : source.kind = out.1.role.sourceKind
  parse_eq : parse source.content out.1.id limit = .ok p
  tree_eq : out.1.tree = p.root
  reports_eq : out.2 = p.diagnostics
  regex_eq : out.1.regex = if p.diagnostics.isEmpty then Regex.ofRoot? p.root else none

section ReadsAs

variable {limit : Nat} {id : SourceId} {role : Role} {content : String} {source : Source}
  {out : ReadText × Diagnostics} {p : Parsed}

theorem readsAs_of_ofText (h : ReadText.ofText limit id role content = .ok out) :
    out.1.id = id ∧ out.1.role = role ∧ ∃ p, ReadsAs limit ⟨role.sourceKind, content⟩ out p := by
  unfold ReadText.ofText at h
  split at h
  · cases h
  · cases h
  next p hparse =>
    cases h
    exact ⟨rfl, rfl, p, rfl, hparse, rfl, rfl, rfl⟩

/-- Reading reports syntax errors and nothing else. -/
theorem ReadsAs.isSyntaxError (h : ReadsAs limit source out p) {d : Diagnostic} (hd : d ∈ out.2) :
    d.kind.isSyntaxError = true := by
  rw [h.reports_eq] at hd
  exact (parse_yields h.parse_eq).2 d hd

/-- A text with a regular expression is one that the grammar derives it from. -/
theorem ReadsAs.derives (h : ReadsAs limit source out p) {expr : Regex}
    (hexpr : out.1.regex = some expr) :
    DerivesUnion (visible (tokens source.content)) expr := by
  have hregex := h.regex_eq
  split at hregex
  next hclean =>
    obtain ⟨expr', hderives⟩ := exists_derives_of_clean h.parse_eq (List.isEmpty_iff.1 hclean)
    rw [hexpr, (ofRoot?_of_derives h.parse_eq hderives).2] at hregex
    cases hregex
    exact hderives
  · rw [hexpr] at hregex
    cases hregex

/-- A text about which nothing is reported has a regular expression. -/
theorem ReadsAs.isSome_regex (h : ReadsAs limit source out p) (hclean : out.2 = []) :
    out.1.regex.isSome = true := by
  rw [h.reports_eq] at hclean
  obtain ⟨expr, hderives⟩ := exists_derives_of_clean h.parse_eq hclean
  rw [h.regex_eq, if_pos (List.isEmpty_iff.2 hclean), (ofRoot?_of_derives h.parse_eq hderives).2]
  rfl

end ReadsAs

/-! ### Reading all texts -/

/-- The outcomes of reading the root and the subexpressions, which have different names. -/
structure Reading (g : GrammarTexts) (texts : ReadTexts) (root : ReadText × Diagnostics)
    (named : List (ReadText × Diagnostics)) : Prop where
  texts_eq : texts =
    ⟨g.actions, g.sourceMap, root.1, named.map (·.1), root.2 ++ named.flatMap (·.2)⟩
  names_nodup : (g.named.map (·.name)).Nodup
  root_eq : ReadText.ofText g.nestingLimit ⟨0⟩ .root g.root = .ok root
  named_eq : List.Forall₂ (fun entry out => g.readNamed entry = .ok out) g.named.zipIdx named

variable {g : GrammarTexts} {texts : ReadTexts} {root out : ReadText × Diagnostics}
  {named : List (ReadText × Diagnostics)}

theorem nodup_of_firstRepeated {seen : List String} {defs : List NamedText}
    (h : GrammarTexts.firstRepeated seen defs = none) :
    (defs.map (·.name)).Nodup ∧ ∀ d ∈ defs, d.name ∉ seen := by
  induction defs generalizing seen with
  | nil => exact ⟨List.nodup_nil, fun _ hd => nomatch hd⟩
  | cons d defs ih =>
    unfold GrammarTexts.firstRepeated at h
    split at h
    · cases h
    next hseen =>
      obtain ⟨hnodup, hfresh⟩ := ih h
      constructor
      · refine List.nodup_cons.2 ⟨fun hmem => ?_, hnodup⟩
        obtain ⟨other, hother, hname⟩ := List.mem_map.1 hmem
        exact hfresh other hother (hname ▸ List.mem_cons_self)
      · refine List.forall_mem_cons.2 ⟨by simpa using hseen, fun other hother hmem => ?_⟩
        exact hfresh other hother (List.mem_cons_of_mem _ hmem)

theorem exists_reading (h : g.read = .ok texts) : ∃ root named, Reading g texts root named := by
  unfold GrammarTexts.read at h
  split at h
  · cases h
  next hrepeated =>
    obtain ⟨root, hroot, h⟩ := bind_eq_ok.1 h
    obtain ⟨named, hnamed, h⟩ := bind_eq_ok.1 h
    cases h
    have hnone : GrammarTexts.firstRepeated [] g.named = none :=
      Option.eq_none_iff_forall_ne_some.2 hrepeated
    exact ⟨root, named, rfl, (nodup_of_firstRepeated hnone).1, hroot,
      forall₂_of_mapM_eq_ok hnamed⟩

namespace Reading

variable (h : Reading g texts root named)

include h

theorem all_eq : texts.all = (root :: named).map (·.1) := by
  rw [h.texts_eq]
  rfl

theorem diagnostics_eq : texts.diagnostics = (root :: named).flatMap (·.2) := by
  rw [h.texts_eq]
  rfl

theorem length_eq : g.named.length = named.length := by
  rw [← h.named_eq.length_eq, List.length_zipIdx]

/-- The text of a subexpression and its outcome stand at one place. -/
theorem readNamed_eq {i : Nat} (hi : i < g.named.length) (hi' : i < named.length) :
    g.readNamed (g.named[i], i) = .ok named[i] := by
  have hzip : i < g.named.zipIdx.length := by rwa [List.length_zipIdx]
  have hread : g.readNamed g.named.zipIdx[i] = .ok named[i] := h.named_eq.get hzip hi'
  rwa [List.getElem_zipIdx, Nat.zero_add] at hread

/-- Each outcome is that of a source. -/
theorem exists_source (hout : out ∈ root :: named) : ∃ source p,
    g.sourceMap.get? out.1.id = some source ∧ ReadsAs g.nestingLimit source out p := by
  rcases List.mem_cons.1 hout with rfl | hout
  · obtain ⟨hid, -, p, hreads⟩ := readsAs_of_ofText h.root_eq
    exact ⟨⟨.root, g.root⟩, p, by rw [hid]; rfl, hreads⟩
  · obtain ⟨i, hi, rfl⟩ := List.mem_iff_getElem.1 hout
    have hi' : i < g.named.length := by rwa [h.length_eq]
    obtain ⟨hid, -, p, hreads⟩ := readsAs_of_ofText (h.readNamed_eq hi' hi)
    refine ⟨_, p, ?_, hreads⟩
    rw [hid]
    simp [GrammarTexts.sourceMap, SourceMap.get?, Role.sourceKind, hi']

/-- Each source has an outcome. -/
theorem exists_outcome {id : SourceId} {source : Source}
    (hsource : g.sourceMap.get? id = some source) :
    ∃ out ∈ root :: named, out.1.id = id ∧ ∃ p, ReadsAs g.nestingLimit source out p := by
  obtain ⟨_ | i⟩ := id
  · cases hsource
    obtain ⟨hid, -, hreads⟩ := readsAs_of_ofText h.root_eq
    exact ⟨root, List.mem_cons_self, hid, hreads⟩
  · have hmap : (g.named[i]?).map (fun text => Source.mk (.subExpression text.name) text.body) =
        some source := by
      rw [← List.getElem?_map]
      exact hsource
    obtain ⟨text, htext, rfl⟩ := Option.map_eq_some_iff.1 hmap
    obtain ⟨hi, rfl⟩ := List.getElem?_eq_some_iff.1 htext
    have hi' : i < named.length := by rwa [← h.length_eq]
    obtain ⟨hid, -, hreads⟩ := readsAs_of_ofText (h.readNamed_eq hi hi')
    exact ⟨named[i], List.mem_cons_of_mem _ (List.getElem_mem hi'), hid, hreads⟩

/-- The outcomes stand in the order of their sources. -/
theorem ids_eq : (root :: named).map (·.1.id) = (List.range (named.length + 1)).map .mk := by
  rw [List.range_succ_eq_map, List.map_cons, List.map_cons, List.map_map]
  refine congrArg₂ List.cons (readsAs_of_ofText h.root_eq).1 (List.ext_getElem (by simp) ?_)
  intro i hi hi'
  rw [List.length_map] at hi
  have hread := h.readNamed_eq (by rwa [h.length_eq]) hi
  simpa using (readsAs_of_ofText hread).1

theorem ids_nodup : ((root :: named).map (·.1.id)).Nodup := by
  rw [h.ids_eq]
  exact List.nodup_range.map fun _ _ heq => SourceId.mk.inj heq

/-- Reading reports syntax errors and nothing else. -/
theorem isSyntaxError {d : Diagnostic} (hd : d ∈ texts.diagnostics) :
    d.kind.isSyntaxError = true := by
  rw [h.diagnostics_eq, List.mem_flatMap] at hd
  obtain ⟨out, hout, hd⟩ := hd
  obtain ⟨source, p, -, hreads⟩ := h.exists_source hout
  exact hreads.isSyntaxError hd

/-- Something is reported exactly if a source has a syntax error. -/
theorem isMisspelled_iff : g.IsMisspelled ↔ ∃ d, d ∈ texts.diagnostics := by
  constructor
  · rintro ⟨id, source, parsed, hsource, hparse, d, hd, -⟩
    obtain ⟨out, hout, rfl, p, hreads⟩ := h.exists_outcome hsource
    have hsame := hreads.parse_eq
    rw [hparse] at hsame
    cases hsame
    rw [h.diagnostics_eq]
    exact ⟨d, List.mem_flatMap.2 ⟨out, hout, hreads.reports_eq ▸ hd⟩⟩
  · rintro ⟨d, hd⟩
    have hkind := h.isSyntaxError hd
    rw [h.diagnostics_eq, List.mem_flatMap] at hd
    obtain ⟨out, hout, hd⟩ := hd
    obtain ⟨source, p, hsource, hreads⟩ := h.exists_source hout
    exact ⟨out.1.id, source, p, hsource, hreads.parse_eq, d, hreads.reports_eq ▸ hd,
      Diagnostic.isError_of_isSyntaxError hkind, hkind⟩

theorem diagnostics_eq_nil (hgood : ¬ g.IsMisspelled) : texts.diagnostics = [] :=
  List.eq_nil_iff_forall_not_mem.2 fun d hd => hgood (h.isMisspelled_iff.2 ⟨d, hd⟩)

/-- Where nothing is reported every text has a regular expression. -/
theorem isSome_regex (hclean : texts.diagnostics = []) :
    ∀ text ∈ texts.all, text.regex.isSome = true := by
  intro text htext
  rw [h.all_eq, List.mem_map] at htext
  obtain ⟨out, hout, rfl⟩ := htext
  obtain ⟨source, p, -, hreads⟩ := h.exists_source hout
  rw [h.diagnostics_eq, List.flatMap_eq_nil_iff] at hclean
  exact hreads.isSome_regex (hclean out hout)

end Reading

/-! ### Registries of texts -/

/-- A definition with a new name is added at the end. -/
theorem replaceNamed_of_not_mem {name : String} {s : SubExpression}
    {defs : List (String × SubExpression)} (h : name ∉ defs.map (·.1)) :
    replaceNamed name s defs = defs ++ [(name, s)] := by
  induction defs with
  | nil => rfl
  | cons d defs ih =>
    rw [List.map_cons, List.mem_cons, not_or] at h
    rw [replaceNamed, if_neg (Ne.symm h.1), ih h.2, List.cons_append]

/-- A text is the definition of its name, with a body. -/
def Defines (d : NamedText) (text : ReadText) : Prop :=
  text.role = .named d.name d.ownScope ∧ text.regex.isSome = true

/-- Bodies are those of some texts. -/
def BodiesOf (texts : List ReadText) (bodies : List SubExpression) : Prop :=
  List.Forall₂ (fun text body => text.subExpression? = some body) texts bodies

theorem exists_define {r : Registry} {text : ReadText} {d : NamedText} (h : Defines d text)
    (hfresh : d.name ∉ r.names) :
    ∃ r' body, text.define? r = some r' ∧ text.subExpression? = some body ∧
      r'.root = r.root ∧ r'.named = r.named ++ [(d.name, body)] := by
  obtain ⟨id, role, tree, regex⟩ := text
  obtain ⟨rfl, hregex⟩ : role = _ ∧ _ := h
  obtain ⟨expr, rfl⟩ := Option.isSome_iff_exists.1 hregex
  exact ⟨_, _, rfl, rfl, rfl, replaceNamed_of_not_mem hfresh⟩

theorem exists_foldlM_define {r : Registry} {defs : List NamedText} {named : List ReadText}
    (h : List.Forall₂ Defines defs named) (hnodup : (r.names ++ defs.map (·.name)).Nodup) :
    ∃ r' entries, named.foldlM ReadText.define? r = some r' ∧
      BodiesOf named (entries.map (·.2)) ∧ entries.map (·.1) = defs.map (·.name) ∧
      r'.root = r.root ∧ r'.named = r.named ++ entries := by
  induction h generalizing r with
  | nil => exact ⟨r, [], rfl, .nil, rfl, rfl, (List.append_nil _).symm⟩
  | @cons d text defs named hd _ ih =>
    rw [List.map_cons, List.append_cons] at hnodup
    have hfresh : d.name ∉ r.names := by
      intro hmem
      have hfirst := (List.nodup_append.1 hnodup).1
      exact (List.nodup_append.1 hfirst).2.2 _ hmem _ (List.mem_singleton_self _) rfl
    obtain ⟨r', body, hdefine, hbody, hroot, hnamed⟩ := exists_define hd hfresh
    have hnames : r'.names = r.names ++ [d.name] := by
      rw [Registry.names, hnamed, List.map_append]
      rfl
    rw [← hnames] at hnodup
    obtain ⟨r'', entries, hrest, hbodies, hentries, hroot', hnamed'⟩ := ih hnodup
    refine ⟨r'', (d.name, body) :: entries, ?_, .cons hbody hbodies, ?_, hroot'.trans hroot, ?_⟩
    · rw [List.foldlM_cons, hdefine]
      exact hrest
    · exact congrArg (d.name :: ·) hentries
    · rw [hnamed', hnamed, List.append_assoc]
      rfl

/-- Texts about which nothing is reported have a registry of their bodies, with their names in
definition order. -/
theorem Reading.exists_registry (h : Reading g texts root named)
    (hclean : texts.diagnostics = []) :
    ∃ r, texts.registry? = some r ∧ BodiesOf texts.all (r.root :: r.named.map (·.2)) ∧
      r.names = g.named.map (·.name) := by
  have hregex := h.isSome_regex hclean
  rw [h.all_eq, List.map_cons, List.forall_mem_cons] at hregex
  obtain ⟨expr, hexpr⟩ := Option.isSome_iff_exists.1 hregex.1
  have hrole := (readsAs_of_ofText h.root_eq).2.1
  have hdefines : List.Forall₂ Defines g.named (named.map (·.1)) := by
    rw [List.forall₂_iff_get]
    refine ⟨by rw [List.length_map, h.length_eq], fun i hi hi' => ?_⟩
    have hlt : i < named.length := by rwa [← h.length_eq]
    refine ⟨?_, hregex.2 _ (List.getElem_mem hi')⟩
    have hread := (readsAs_of_ofText (h.readNamed_eq hi hlt)).2.1
    simpa using hread
  obtain ⟨⟨id, role, tree, regex⟩, ds⟩ := root
  obtain rfl : role = .root := hrole
  obtain rfl : regex = some expr := hexpr
  have hstart : (([] : List String) ++ g.named.map (·.name)).Nodup := h.names_nodup
  obtain ⟨r, entries, hr, hbodies, hnames, hroot, hnamed⟩ := exists_foldlM_define
    (r := ⟨⟨.root, expr, id, tree.extent⟩, [], rfl, names_agree_nil, List.nodup_nil⟩) hdefines
    hstart
  have hnamed : r.named = entries := hnamed
  refine ⟨r, ?_, ?_, ?_⟩
  · rw [h.texts_eq]
    exact hr
  · rw [h.all_eq, hroot, hnamed]
    exact .cons rfl hbodies
  · rw [Registry.names, hnamed, hnames]

end CallChain
