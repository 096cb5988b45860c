import CallChain.Proofs.Grammar.Productions
import CallChain.Proofs.Grammar.Walk
import CallChain.Proofs.Lists

/-!
# What the reader reports

A report points at the next word, and at most one is made there. As words are taken from left to
right, the reports of a text start further and further right (`ParseState.Ordered`), and each says
which token it is about (`Points`). A bracket that a report points back to stands in a node whose
closing bracket is missing (`Tree.openBrackets`), and each token that is set aside has been reported
(`Tree.misplaced`).

* `told_report`: one report.
* `walk_tells`: the productions.
* `parse_reports`: the reports about a text.
-/

namespace CallChain

/-! ### Open brackets and misplaced tokens -/

/-- The brackets around a node. -/
def SyntaxKind.brackets? : SyntaxKind → Option (SyntaxKind × SyntaxKind)
  | .group => some (.parenOpen, .parenClose)
  | .subExprRef => some (.angleOpen, .angleClose)
  | _ => none

/-- The problem with an opening bracket that is not closed. -/
def SyntaxKind.unclosedProblem? : SyntaxKind → Option DiagnosticKind
  | .parenOpen => some .unclosedGroup
  | .angleOpen => some .unclosedSubExpressionRef
  | _ => none

namespace Tree

/-- The tokens directly below a node. -/
def bare (children : Forest) : List Token :=
  children.filterMap fun
    | leaf token => some token
    | node _ _ => none

/-- The opening brackets among the tokens directly below a node, if a closing one is missing. -/
def unclosed (kind : SyntaxKind) (tokens : List Token) : List Token :=
  match kind.brackets? with
  | none => []
  | some (opening, closing) =>
    if tokens.any (·.kind = closing) then [] else tokens.filter (·.kind = opening)

mutual

/-- The opening brackets of a tree that are not closed. -/
def openBrackets : Tree → List Token
  | leaf _ => []
  | node kind children => unclosed kind (bare children) ++ openBracketsOf children

def openBracketsOf : List Tree → List Token
  | [] => []
  | tree :: trees => openBrackets tree ++ openBracketsOf trees

end

mutual

/-- The tokens that were set aside, each in an error node. -/
def misplaced : Tree → List Token
  | leaf _ => []
  | node kind children => if kind = .error then leavesOf children else misplacedOf children

def misplacedOf : List Tree → List Token
  | [] => []
  | tree :: trees => misplaced tree ++ misplacedOf trees

end

variable {kind opening closing : SyntaxKind} {f g : Forest} {ts : List Token} {token : Token}

@[simp] theorem bare_append : bare (f ++ g) = bare f ++ bare g := List.filterMap_append

@[simp] theorem bare_leaves : bare (ts.map .leaf) = ts := by
  simp [bare, List.filterMap_map]

@[simp] theorem bare_node : bare [.node kind f] = [] := rfl

@[simp] theorem openBracketsOf_append :
    openBracketsOf (f ++ g) = openBracketsOf f ++ openBracketsOf g := by
  induction f with
  | nil => rfl
  | cons tree f ih => simp [openBracketsOf, ih]

@[simp] theorem openBracketsOf_leaves : openBracketsOf (ts.map .leaf) = [] := by
  induction ts with
  | nil => rfl
  | cons token ts ih => simp [openBracketsOf, openBrackets, ih]

@[simp] theorem openBracketsOf_node :
    openBracketsOf [.node kind f] = unclosed kind (bare f) ++ openBracketsOf f := by
  simp [openBracketsOf, openBrackets]

@[simp] theorem misplacedOf_append :
    misplacedOf (f ++ g) = misplacedOf f ++ misplacedOf g := by
  induction f with
  | nil => rfl
  | cons tree f ih => simp [misplacedOf, ih]

@[simp] theorem misplacedOf_leaves : misplacedOf (ts.map .leaf) = [] := by
  induction ts with
  | nil => rfl
  | cons token ts ih => simp [misplacedOf, misplaced, ih]

theorem misplacedOf_node (hkind : kind ≠ .error) : misplacedOf [.node kind f] = misplacedOf f := by
  simp [misplacedOf, misplaced, hkind]

theorem mem_unclosed (hbrackets : kind.brackets? = some (opening, closing)) :
    token ∈ unclosed kind ts ↔
      token ∈ ts ∧ token.kind = opening ∧ ∀ other ∈ ts, other.kind ≠ closing := by
  simp only [unclosed, hbrackets]
  split
  next hclosed =>
    obtain ⟨other, hother, hkind⟩ := List.any_eq_true.1 hclosed
    simp only [List.not_mem_nil, false_iff]
    rintro ⟨-, -, hopen⟩
    exact hopen other hother (of_decide_eq_true hkind)
  next hclosed =>
    simp only [List.any_eq_true, decide_eq_true_eq, not_exists, not_and] at hclosed
    simp only [List.mem_filter, decide_eq_true_eq]
    exact ⟨fun ⟨hmem, hkind⟩ => ⟨hmem, hkind, hclosed⟩, fun ⟨hmem, hkind, _⟩ => ⟨hmem, hkind⟩⟩

theorem mem_of_mem_bare (h : token ∈ bare f) : token ∈ leavesOf f := by
  induction f with
  | nil => cases h
  | cons tree f ih =>
    rw [leavesOf, List.mem_append]
    cases tree with
    | leaf other =>
      rcases List.mem_cons.1 h with rfl | h
      · exact .inl (List.mem_singleton_self _)
      · exact .inr (ih h)
    | node kind children => exact .inr (ih h)

theorem mem_of_mem_unclosed (h : token ∈ unclosed kind ts) : token ∈ ts := by
  unfold unclosed at h
  split at h
  · cases h
  · split at h
    · cases h
    · exact List.mem_of_mem_filter h

mutual

theorem mem_leaves_of_mem_openBrackets :
    ∀ tree : Tree, token ∈ tree.openBrackets → token ∈ tree.leaves
  | leaf _, h => nomatch h
  | node kind children, h => by
    rw [openBrackets, List.mem_append] at h
    rcases h with h | h
    · exact mem_of_mem_bare (mem_of_mem_unclosed h)
    · exact mem_leavesOf_of_mem_openBracketsOf children h

theorem mem_leavesOf_of_mem_openBracketsOf :
    ∀ trees : Forest, token ∈ openBracketsOf trees → token ∈ leavesOf trees
  | [], h => nomatch h
  | tree :: trees, h => by
    rw [openBracketsOf, List.mem_append] at h
    rw [leavesOf, List.mem_append]
    exact h.imp (mem_leaves_of_mem_openBrackets tree) (mem_leavesOf_of_mem_openBracketsOf trees)

end

end Tree

open CallChain.Tree

/-! ### Reports in order -/

namespace ParseState

variable {input : Parser.Input} {s s' : ParseState}

/-- Where the next word starts, or where the text stops. -/
def place (input : Parser.Input) (s : ParseState) : Nat :=
  (s.words.head?.map (·.start)).getD input.stop

/-- Words and reports stand in order, the reports not behind the next word. -/
structure Ordered (input : Parser.Input) (s : ParseState) : Prop extends s.Sane where
  words : s.words.Pairwise (·.start < ·.start)
  stop : ∀ token ∈ s.words, token.start < input.stop
  reports : s.reports.Pairwise (·.span.start < ·.span.start)
  last : s.lastReport = s.reports.getLast?.map (·.span.start)
  behind : ∀ d ∈ s.reports, d.span.start ≤ s.place input

/-- The last report is the only one that may be at the next word. -/
theorem Ordered.lt_place (h : s.Ordered input) (hfresh : s.lastReport ≠ some (s.place input)) :
    ∀ d ∈ s.reports, d.span.start < s.place input := by
  intro d hd
  have hle := h.behind d hd
  suffices hne : d.span.start ≠ s.place input by omega
  intro heq
  obtain ⟨before, last, hreports⟩ : ∃ before last, s.reports = before ++ [last] := by
    rcases List.eq_nil_or_concat' s.reports with hnil | hlast
    · rw [hnil] at hd
      cases hd
    · exact hlast
  have hlast := h.last
  rw [hreports, List.getLast?_concat, Option.map_some] at hlast
  have hmem : last ∈ s.reports := by simp [hreports]
  have hlast_le := h.behind last hmem
  have hpairwise := h.reports
  rw [hreports] at hd hpairwise
  rcases List.mem_append.1 hd with hd | hd
  · have hlt := (List.pairwise_append.1 hpairwise).2.2 d hd last (List.mem_singleton_self _)
    omega
  · rw [List.mem_singleton.1 hd] at heq
    exact hfresh (hlast.trans (congrArg some heq))

variable {kind : DiagnosticKind} {related : List Related}

/-- A diagnostic about the next word, or about the end of the text. -/
def diagnosis (input : Parser.Input) (kind : DiagnosticKind) (related : List Related)
    (s : ParseState) : Diagnostic where
  kind
  source := input.source
  span := (s.words.head?.map (·.span)).getD (.emptyAt input.stop)
  detail := s.words.head?.map (·.text)
  related

theorem start_diagnosis : (s.diagnosis input kind related).span.start = s.place input := by
  rw [diagnosis, place]
  cases s.words <;> rfl

/-- The state behind a report. -/
def reported (input : Parser.Input) (kind : DiagnosticKind) (related : List Related)
    (s : ParseState) : ParseState :=
  if s.lastReport = some (s.place input) then s
  else
    { s with
      lastReport := some (s.place input)
      reports := s.reports ++ [s.diagnosis input kind related] }

theorem words_reported : (s.reported input kind related).words = s.words := by
  unfold reported
  split <;> rfl

theorem place_reported : (s.reported input kind related).place input = s.place input := by
  rw [place, words_reported, place]

/-- Afterwards the last report is about the next word. -/
theorem lastReport_reported :
    (s.reported input kind related).lastReport = some (s.place input) := by
  unfold reported
  split
  · assumption
  · rfl

theorem Ordered.reported (h : s.Ordered input) : (s.reported input kind related).Ordered input := by
  unfold ParseState.reported
  split
  next => exact h
  next hfresh =>
    have hlt := h.lt_place hfresh
    refine ⟨⟨h.pending, h.ahead, fun hnone => ?_⟩, h.words, h.stop, ?_, ?_, ?_⟩
    · exact absurd hnone (List.append_ne_nil_of_right_ne_nil _ (List.cons_ne_nil _ _))
    · refine List.pairwise_append.2 ⟨h.reports, List.pairwise_singleton _ _, ?_⟩
      intro d hd d' hd'
      rw [List.mem_singleton.1 hd', start_diagnosis]
      exact hlt d hd
    · rw [List.getLast?_concat, Option.map_some, start_diagnosis]
    · intro d hd
      rcases List.mem_append.1 hd with hd | hd
      · exact h.behind d hd
      · rw [List.mem_singleton.1 hd, start_diagnosis]
        exact Nat.le_refl _

end ParseState

namespace Parser

open ParseState

variable {input : Input} {s s' s'' : ParseState} {f g : Forest} {token : Token}
  {inside : Option (Parser Forest)}

/-- What a report does to a state. -/
theorem report_eq (input : Input) (kind : DiagnosticKind) (related : List Related)
    (s : ParseState) : report input kind related s = .ok ((), s.reported input kind related) := by
  obtain ⟨pending, ahead, taken, looks, lastReport, reports⟩ := s
  cases ahead <;> rfl

/-- What a problem points back to is one of the opened brackets, which it is about. -/
def PointsBack (opened : List Token) (kind : DiagnosticKind) (r : Related) : Prop :=
  ∃ token ∈ opened, r.span = token.span ∧ token.kind.unclosedProblem? = some kind

/-- A diagnostic about a word or about the end of the text, which points back to open brackets. -/
structure Points (input : Input) (words opened : List Token) (d : Diagnostic) : Prop where
  source_eq : d.source = input.source
  place : (∃ token ∈ words, d.span = token.span ∧ d.detail = some token.text) ∨
    d.span = .emptyAt input.stop ∧ d.detail = none
  related : ∀ r ∈ d.related, PointsBack opened d.kind r

theorem Points.mono {words words' opened opened' : List Token} {d : Diagnostic}
    (h : Points input words opened d) (hwords : words ⊆ words') (hopened : opened ⊆ opened') :
    Points input words' opened' d where
  source_eq := h.source_eq
  place := h.place.imp_left fun ⟨token, htoken, heq⟩ => ⟨token, hwords htoken, heq⟩
  related r hr := by
    obtain ⟨token, htoken, heq⟩ := h.related r hr
    exact ⟨token, hopened htoken, heq⟩

variable (input) in
/-- What a run of the reader that answers some trees tells about them. -/
structure Told (s : ParseState) (f : Forest) (s' : ParseState) : Prop where
  words : s'.words <:+ s.words
  ordered : s'.Ordered input
  reports : Grown (Points input s.words (openBracketsOf f)) s.reports s'.reports
  misplaced : ∀ token ∈ misplacedOf f, ∃ d ∈ s'.reports, d.span.start = token.start

theorem Told.append (h : Told input s f s') (h' : Told input s' g s'') :
    Told input s (f ++ g) s'' where
  words := h'.words.trans h.words
  ordered := h'.ordered
  reports := by
    refine (h.reports.mono fun d hd => ?_).trans (h'.reports.mono fun d hd => ?_)
    · exact hd.mono (List.Subset.refl _) (by simp)
    · exact hd.mono h.words.subset (by simp)
  misplaced token htoken := by
    rw [misplacedOf_append, List.mem_append] at htoken
    rcases htoken with htoken | htoken
    · obtain ⟨d, hd, heq⟩ := h.misplaced token htoken
      exact ⟨d, h'.reports.isPrefix.subset hd, heq⟩
    · exact h'.misplaced token htoken

/-- The same run, for other trees with the same misplaced tokens and at least the open brackets. -/
theorem Told.widen (h : Told input s f s') (hopen : openBracketsOf f ⊆ openBracketsOf g)
    (hmisplaced : misplacedOf g = misplacedOf f) : Told input s g s' where
  words := h.words
  ordered := h.ordered
  reports := h.reports.mono fun _ hd => hd.mono (List.Subset.refl _) hopen
  misplaced := by
    rw [hmisplaced]
    exact h.misplaced

theorem Told.node {kind : SyntaxKind} (hkind : kind ≠ .error) (h : Told input s f s') :
    Told input s [.node kind f] s' :=
  h.widen (by simp) (misplacedOf_node hkind)

/-! ### Steps -/

theorem told_idle (h : s.Ordered input) (hidle : s.Idle s') : Told input s [] s' := by
  have hordered : s'.Ordered input := by
    rw [hidle]
    exact ⟨⟨h.pending, h.ahead, h.quiet⟩, h.words, h.stop, h.reports, h.last, h.behind⟩
  rw [hidle]
  rw [hidle] at hordered
  exact ⟨List.suffix_refl _, hordered, .refl _, fun _ htoken => nomatch htoken⟩

theorem told_flush (h : s.Ordered input) (hflush : Reads flush s f s') : Told input s f s' := by
  have hsane := (reads_flush hflush).2.sane h.toSane
  cases hflush
  refine ⟨List.suffix_refl _, ⟨hsane, h.words, h.stop, h.reports, h.last, h.behind⟩, .refl _, ?_⟩
  simp

/-- The words behind the one that is taken start further right. -/
theorem place_lt_of_bump (h : s.Ordered input) (hbump : Reads bump s f s') :
    s.place input < s'.place input := by
  obtain ⟨token, htakes, -⟩ := reads_bump hbump
  have hwords : s.words = token :: s'.words := htakes.words_eq
  have hpairwise := h.words
  rw [hwords, List.pairwise_cons] at hpairwise
  have hplace : s.place input = token.start := by rw [place, hwords]; rfl
  rw [hplace, place]
  cases hahead : s'.words with
  | nil => exact h.stop token (hwords ▸ List.mem_cons_self)
  | cons next rest => exact hpairwise.1 next (hahead ▸ List.mem_cons_self)

theorem told_bump (h : s.Ordered input) (hbump : Reads bump s f s') : Told input s f s' := by
  obtain ⟨token, htakes, -⟩ := reads_bump hbump
  have hwords : s.words = token :: s'.words := htakes.words_eq
  have hsane := htakes.sane h.toSane
  have hpairwise := h.words
  rw [hwords, List.pairwise_cons] at hpairwise
  have hlt := place_lt_of_bump h hbump
  unfold Reads bump at hbump
  split at hbump
  · cases hbump
  · cases hbump
    refine ⟨hwords ▸ List.suffix_cons _ _, ⟨hsane, hpairwise.2, ?_, h.reports, h.last, ?_⟩,
      .refl _, ?_⟩
    · intro other hother
      exact h.stop other (hwords ▸ List.mem_cons_of_mem _ hother)
    · intro d hd
      have hle := h.behind d hd
      omega
    · rw [misplacedOf_leaves]
      simp

/-- Where a word has just been taken, nothing is reported yet. -/
theorem fresh_of_bump (h : s.Ordered input) (hbump : Reads bump s f s') :
    s'.lastReport ≠ some (s'.place input) := by
  have hlt := place_lt_of_bump h hbump
  have hsame : s'.lastReport = s.lastReport := by
    unfold Reads bump at hbump
    split at hbump
    · cases hbump
    · cases hbump
      rfl
  intro hlast
  rw [hsame, h.last, Option.map_eq_some_iff] at hlast
  obtain ⟨d, hd, heq⟩ := hlast
  have hle := h.behind d (List.mem_of_getLast? hd)
  omega

/-- A report, if it is made, points at the next word, and one is there afterwards. -/
theorem told_report {kind : DiagnosticKind} {related : List Related} {u : Unit}
    (h : s.Ordered input)
    (hrelated : ∀ r ∈ related, PointsBack (openBracketsOf f) kind r)
    (hreport : Reads (report input kind related) s u s') :
    s'.words = s.words ∧ s'.Ordered input ∧
      Grown (Points input s.words (openBracketsOf f)) s.reports s'.reports ∧
      ∃ d ∈ s'.reports, d.span.start = s.place input := by
  have heq : s' = s.reported input kind related := by
    unfold Reads at hreport
    rw [report_eq] at hreport
    cases hreport
    rfl
  subst heq
  refine ⟨words_reported, h.reported, ?_⟩
  unfold reported
  split
  next hlast =>
    -- one has been reported there before
    rw [h.last, Option.map_eq_some_iff] at hlast
    obtain ⟨d, hd, heq⟩ := hlast
    exact ⟨.refl _, d, List.mem_of_getLast? hd, heq⟩
  next hfresh =>
    refine ⟨.append fun d hd => ?_, _, List.mem_append_right _ (List.mem_singleton_self _),
      start_diagnosis⟩
    rw [List.mem_singleton.1 hd]
    refine ⟨rfl, ?_, hrelated⟩
    rw [diagnosis]
    cases s.words with
    | nil => exact .inr ⟨rfl, rfl⟩
    | cons token rest => exact .inl ⟨token, List.mem_cons_self, rfl, rfl⟩

/-- A report behind a run, which points back to open brackets of the trees at most. -/
theorem Told.report {kind : DiagnosticKind} {related : List Related} {u : Unit}
    (h : Told input s f s')
    (hrelated : ∀ r ∈ related, PointsBack (openBracketsOf f) kind r)
    (hreport : Reads (report input kind related) s' u s'') : Told input s f s'' := by
  obtain ⟨hwords, hordered, hreports, -⟩ := told_report h.ordered hrelated hreport
  refine ⟨hwords ▸ h.words, hordered, h.reports.trans (hreports.mono fun d hd => ?_), ?_⟩
  · exact hd.mono h.words.subset (List.Subset.refl _)
  · intro token htoken
    obtain ⟨d, hd, heq⟩ := h.misplaced token htoken
    exact ⟨d, hreports.isPrefix.subset hd, heq⟩

theorem told_nil (h : s.Ordered input) : Told input s [] s := told_idle h rfl

/-! ### Brackets -/

/-- A report that may be made behind a run and points back to nothing. -/
theorem Told.mayReport {c : Prop} {kind : DiagnosticKind} (h : Told input s f s')
    (hreport : MayReport input c kind [] s' s'') : Told input s f s'' := by
  by_cases hc : c
  · obtain ⟨u, hreport⟩ := hreport.made hc
    exact h.report (by simp) hreport
  · rwa [hreport.skipped hc]

/-- The opening bracket of a node, and its span. -/
theorem told_opening {kind : SyntaxKind} {opening : Span} {bracket : Forest}
    (h : s.Ordered input) (hnext : s.next = some kind)
    (hspan : Reads (nextSpan input) s opening s') (hbump : Reads bump s' bracket s'') :
    ∃ token, token.kind = kind ∧ opening = token.span ∧ Taken bracket token ∧
      Told input s bracket s'' := by
  obtain ⟨hopening, rfl⟩ := reads_nextSpan_eq hspan
  obtain ⟨token, htakes, htaken⟩ := reads_bump hbump
  rw [htakes.words_eq] at hopening
  have hkind : some token.kind = some kind := htakes.next_eq_some.symm.trans hnext
  exact ⟨token, Option.some.inj hkind, hopening, htaken h.toSane, told_bump h hbump⟩

theorem told_eat? {kind : SyntaxKind} {o : Option Forest} (h : s.Ordered input)
    (heat : Reads (eat? kind) s o s') : Told input s (o.getD []) s' := by
  cases eatSteps heat with
  | eaten hnext hbump =>
    have hidle := told_idle h (idle_nextIs hnext)
    exact hidle.append (told_bump hidle.ordered hbump)
  | left hnext => exact told_idle h (idle_nextIs hnext)

theorem kind_of_mem_bare (h : Taken f token) {other : Token} (hother : other ∈ bare f) :
    other.kind.isTrivia = true ∨ other.kind = token.kind := by
  obtain ⟨blanks, hblanks, rfl⟩ := h
  rw [bare_leaves, List.mem_append, List.mem_singleton] at hother
  rcases hother with hother | rfl
  · exact .inl (hblanks other hother)
  · exact .inr rfl

/-- Where the closing bracket of a node is missing, the report points back to the opening one. -/
theorem told_unclosed {kind opening closing : SyntaxKind} {problem : DiagnosticKind}
    {message : String} {bracket body : Forest} {u : Unit}
    (hbrackets : kind.brackets? = some (opening, closing))
    (hproblem : opening.unclosedProblem? = some problem)
    (h : Told input s (bracket ++ body) s') (hbracket : Taken bracket token)
    (hkind : token.kind = opening)
    (hclosing : ∀ other ∈ bare (bracket ++ body), other.kind ≠ closing)
    (hreport : Reads (report input problem [⟨message, token.span⟩]) s' u s'') :
    Told input s [.node kind (bracket ++ body)] s'' := by
  have hnode : kind ≠ .error := by
    rintro rfl
    cases hbrackets
  have hmem : token ∈ bare (bracket ++ body) := by
    obtain ⟨blanks, -, rfl⟩ := hbracket
    rw [bare_append, bare_leaves]
    simp
  refine (h.node hnode).report (fun r hr => ⟨token, ?_, ?_, ?_⟩) hreport
  · rw [openBracketsOf_node]
    exact List.mem_append_left _ ((mem_unclosed hbrackets).2 ⟨hmem, hkind, hclosing⟩)
  · rw [List.mem_singleton.1 hr]
  · rwa [hkind]

/-- The end of a node with brackets: its closing bracket, or a report that there is none. -/
theorem told_closing {kind opening closing : SyntaxKind} {problem : DiagnosticKind}
    {message : String} {bracket body : Forest} {o : Option Forest} {s₁ s₂ : ParseState}
    (hbrackets : kind.brackets? = some (opening, closing))
    (hproblem : opening.unclosedProblem? = some problem)
    (h : Told input s (bracket ++ body) s₁) (hbracket : Taken bracket token)
    (hkind : token.kind = opening)
    (hclosing : ∀ other ∈ bare (bracket ++ body), other.kind ≠ closing)
    (heat : Reads (eat? closing) s₁ o s₂)
    (hreport : MayReport input (o.isNone = true) problem [⟨message, token.span⟩] s₂ s') :
    Told input s [.node kind (bracket ++ body ++ o.getD [])] s' := by
  have hwhole := h.append (told_eat? h.ordered heat)
  by_cases hnone : o.isNone = true
  · obtain ⟨u, hreport⟩ := hreport.made hnone
    rw [Option.isNone_iff_eq_none.1 hnone, Option.getD_none, List.append_nil] at hwhole ⊢
    exact told_unclosed hbrackets hproblem hwhole hbracket hkind hclosing hreport
  · have hnode : kind ≠ .error := by
      rintro rfl
      cases hbrackets
    rw [hreport.skipped hnone]
    exact hwhole.node hnode

/-! ### Productions -/

variable (input) in
/-- What a run tells about trees that may stand beside a node: only blanks among them are bare. -/
structure Stands (s : ParseState) (f : Forest) (s' : ParseState) : Prop extends
    Told input s f s' where
  blank : ∀ token ∈ bare f, token.kind.isTrivia = true

theorem Stands.append (h : Stands input s f s') (h' : Stands input s' g s'') :
    Stands input s (f ++ g) s'' where
  toTold := h.toTold.append h'.toTold
  blank token htoken := by
    rw [bare_append, List.mem_append] at htoken
    exact htoken.elim (h.blank token) (h'.blank token)

theorem stands_node {kind : SyntaxKind} (h : Told input s [.node kind f] s') :
    Stands input s [.node kind f] s' :=
  ⟨h, fun _ htoken => nomatch htoken⟩

theorem stands_nil (h : Told input s [] s') : Stands input s [] s' :=
  ⟨h, fun _ htoken => nomatch htoken⟩

theorem stands_flush (h : s.Ordered input) (hflush : Reads flush s f s') :
    Stands input s f s' := by
  refine ⟨told_flush h hflush, ?_⟩
  rw [(reads_flush hflush).1, bare_leaves]
  exact h.pending

theorem told_reference (h : s.Ordered input) (hnext : s.next = some .angleOpen)
    (hreads : Reads (reference input) s f s') : Stands input s f s' := by
  cases referenceSteps hreads with
  | @steps _ bracket name _ _ _ _ _ _ _ hspan hbump hname hmissing hclose hunclosed =>
    obtain ⟨token, hkind, rfl, htaken, hbracket⟩ := told_opening h hnext hspan hbump
    have hfront := (hbracket.append (told_eat? hbracket.ordered hname)).mayReport hmissing
    have hbare : ∀ other ∈ bare (bracket ++ name.getD []), other.kind ≠ .angleClose := by
      intro other hother
      have hkinds : other.kind.isTrivia = true ∨ other.kind = .angleOpen ∨ other.kind = .id := by
        rw [bare_append, List.mem_append] at hother
        rcases hother with hother | hother
        · rw [← hkind]
          exact (kind_of_mem_bare htaken hother).imp_right .inl
        · rcases reads_eat? hname with ⟨f, token, rfl, hid, -, htaken⟩ | ⟨rfl, -⟩
          · rw [← hid]
            exact (kind_of_mem_bare (htaken hbracket.ordered.toSane) hother).imp_right .inr
          · cases hother
      intro heq
      simp [heq, SyntaxKind.isTrivia] at hkinds
    exact stands_node (told_closing rfl rfl hfront htaken hkind hbare hclose hunclosed)

theorem stands_inside {reader : Parser Forest}
    (hreader : ∀ {s f s'}, Reads reader s f s' → s.Ordered input → Stands input s f s')
    (h : s.Ordered input) (hinside : GroupInside input reader s f s') : Stands input s f s' := by
  have hlooked {closed ended : Bool} {s₁ s₂ : ParseState}
      (hclosed : Reads (nextIs .parenClose) s closed s₁) (hended : Reads atEnd s₁ ended s₂) :
      Told input s [] s₂ :=
    told_idle h ((idle_nextIs hclosed).trans (idle_atEnd hended))
  cases hinside with
  | empty hclosed hended hreport =>
    exact stands_nil ((hlooked hclosed hended).report (by simp) hreport)
  | ended hclosed hended => exact stands_nil (hlooked hclosed hended)
  | read hclosed hended hbody =>
    have hbefore := hlooked hclosed hended
    exact (stands_nil hbefore).append (hreader hbody hbefore.ordered)

theorem told_group
    (hinside : ∀ reader ∈ inside, ∀ {s f s'}, Reads reader s f s' → s.Ordered input →
      Stands input s f s')
    (h : s.Ordered input) (hnext : s.next = some .parenOpen)
    (hreads : Reads (group input inside) s f s') : Stands input s f s' := by
  obtain ⟨reader, hreader, hsteps⟩ := groupSteps hreads
  cases hsteps with
  | @steps _ bracket body closing _ _ _ _ _ _ _ s₁ _ hrefill hspan hbump hbody hclose hunclosed
      hrefill' =>
    have hstart := told_idle h (idle_refill hrefill)
    have hnext₁ := (reads_refill hrefill).next_eq.trans hnext
    obtain ⟨token, hkind, rfl, htaken, hbracket⟩ := told_opening hstart.ordered hnext₁ hspan hbump
    have hstands := stands_inside (hinside reader hreader) hbracket.ordered hbody
    have hfront := (hstart.append hbracket).append hstands.toTold
    have hbare : ∀ other ∈ bare (bracket ++ body), other.kind ≠ .parenClose := by
      intro other hother
      have hkinds : other.kind.isTrivia = true ∨ other.kind = .parenOpen := by
        rw [bare_append, List.mem_append] at hother
        rcases hother with hother | hother
        · rw [← hkind]
          exact kind_of_mem_bare htaken hother
        · exact .inl (hstands.blank other hother)
      intro heq
      simp [heq, SyntaxKind.isTrivia] at hkinds
    have hnode : Told input s [.node .group (bracket ++ body ++ closing.getD [])] s₁ :=
      told_closing rfl rfl hfront htaken hkind hbare hclose hunclosed
    exact stands_node (hnode.append (told_idle hnode.ordered (idle_refill hrefill')))

theorem exists_bump_eq (h : Reads bump s f s') : ∃ token, s.words = token :: s'.words ∧
    f = (s.pending ++ [token]).map .leaf := by
  unfold Reads bump at h
  split at h
  · cases h
  next word ahead hahead =>
    cases h
    refine ⟨word.token, ?_, rfl⟩
    rw [words, hahead]
    rfl

/-- The word that is set aside is the one that has been reported. -/
theorem told_setAside (h : s.Ordered input) (hreads : Reads (setAside input) s f s') :
    Told input s f s' := by
  cases setAsideSteps hreads with
  | ended hreport hended =>
    have hreported := (told_nil h).report (by simp) hreport
    exact hreported.append (told_idle hreported.ordered (idle_atEnd hended))
  | @word _ before word s₁ s₂ s₃ _ hreport hended hflush hbump =>
    obtain ⟨hwords, hordered, -, d, hd, hstart⟩ := told_report (f := []) h (by simp) hreport
    have hidle := told_idle hordered (idle_atEnd hended)
    have hbefore := hidle.append (told_flush hidle.ordered hflush)
    have hbehind := hbefore.append (told_bump hbefore.ordered hbump)
    have hwhole := ((told_nil h).report (by simp) hreport).append hbehind
    obtain ⟨token, htoken, htaken⟩ := exists_bump_eq hbump
    have hpending : s₃.pending = [] := by
      cases hflush
      rfl
    have hahead : s.words = token :: s'.words := by
      have hflushed : s₂.words = s₃.words := (reads_flush hflush).2.words_eq
      rw [← hwords, ← (idle_atEnd hended).words_eq, hflushed, htoken]
    have hplace : s.place input = token.start := by rw [place, hahead]; rfl
    refine ⟨hwhole.words, hwhole.ordered, hwhole.reports.mono fun d hd => ?_, ?_⟩
    · exact hd.mono (List.Subset.refl _) (by simp)
    · intro other hother
      have hother : other = token := by
        rw [(reads_flush hflush).1, htaken, hpending, misplacedOf_append, misplacedOf_leaves]
          at hother
        simpa [misplacedOf, misplaced, leavesOf, leaves] using hother
      refine ⟨d, hbehind.reports.isPrefix.subset hd, ?_⟩
      rw [hstart, hplace, hother]

/-- What the reader tells about the trees of a text. -/
theorem walk_tells : Walk input (fun s f s' => s.Ordered input → Stands input s f s')
    (fun s f s' => s.Ordered input → Told input s f s') where
  idle hidle h := stands_nil (told_idle h hidle)
  report hreport h := stands_nil ((told_nil h).report (by simp) hreport)
  flush hflush h := stands_flush h hflush
  append h h' hs := (h hs).append (h' (h hs).ordered)
  inner_of h hs := (h hs).toTold
  bump hbump h := told_bump h hbump
  append_inner h h' hs := (h hs).append (h' (h hs).ordered)
  node hkind h hs := stands_node ((h hs).node hkind)
  reference hnext hreads h := told_reference h hnext hreads
  group hinside hnext hreads h := told_group hinside h hnext hreads
  setAside hreads h := told_setAside h hreads

/-- At first nothing is reported, and the words are those of the text. -/
theorem ordered_ofTokens (text : String) (source : SourceId) :
    (ofTokens (tokens text)).Ordered ⟨source, text.utf8ByteSize⟩ ∧
      (ofTokens (tokens text)).words = visible (tokens text) := by
  obtain ⟨hwords, hfirst, hblanks⟩ := splitWords_spec (tokens text)
  have hwords : (ofTokens (tokens text)).words = visible (tokens text) := hwords
  refine ⟨⟨⟨hfirst, hblanks, fun _ => rfl⟩, ?_, ?_, .nil, rfl, fun _ hd => nomatch hd⟩, hwords⟩
  · rw [hwords]
    exact (pairwise_start_tokensFrom 0 text.toList).filter _
  · rw [hwords]
    intro token htoken
    exact start_lt_of_mem_tokens (List.mem_of_mem_filter htoken)

end Parser

variable {text : String} {source : SourceId} {limit : Nat} {p : Parsed}

/-- The reports about a text: each is about a word of the text or about its end, they start further
and further right, and each token that was set aside has been reported. -/
theorem parse_reports (h : parse text source limit = .ok p) :
    (∀ d ∈ p.diagnostics, Parser.Points ⟨source, text.utf8ByteSize⟩ (visible (tokens text))
      p.root.openBrackets d) ∧
      p.diagnostics.Pairwise (·.span.start < ·.span.start) ∧
      ∀ token ∈ p.root.misplaced, ∃ d ∈ p.diagnostics, d.span.start = token.start := by
  unfold parse at h
  split at h
  next tree s hread =>
    cases h
    obtain ⟨hordered, hwords⟩ := Parser.ordered_ofTokens text source
    have htold := (Parser.walk_tells.root hread hordered).toTold
    rw [← hwords]
    refine ⟨?_, htold.ordered.reports, ?_⟩
    · have hpoints := htold.reports.of_nil
      simpa [openBracketsOf] using hpoints
    · have hmisplaced := htold.misplaced
      simpa [misplacedOf] using hmisplaced
  next => cases h

end CallChain
