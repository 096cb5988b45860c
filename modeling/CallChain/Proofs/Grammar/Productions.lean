import CallChain.Proofs.Grammar.Steps

/-!
# Runs of productions

What a run of each production consists of, as far as the words that are taken and the reports are
concerned.
-/

namespace CallChain.Parser

open ParseState

variable {s s' : ParseState} {f operand : Forest} {input : Input} {room : Nat}
  {inside : Option (Parser Forest)}

/-! ### Loops -/

/-- The quantifiers behind an operand, each around what stands before it. -/
inductive QuantifiedRun : Forest → ParseState → Forest → ParseState → Prop where
  | stop {operand : Forest} {s s' : ParseState}
      (hnext : s.next.any KindSet.quantifiers.contains = false) (htakes : s.Takes [] s') :
      QuantifiedRun operand s operand s'
  | wrap {token : Token} {operand taken f : Forest} {s s₁ s₂ s' : ParseState}
      (hnext : s.next.any KindSet.quantifiers.contains = true) (htakes : s.Takes [token] s₁)
      (htaken : s.Sane → Taken taken token)
      (hrest : QuantifiedRun [.node .quantified (operand ++ taken)] s₁ f s₂)
      (hend : s₂.Takes [] s') : QuantifiedRun operand s f s'

theorem QuantifiedSteps.run (h : QuantifiedSteps operand s f s') :
    QuantifiedRun operand s f s' := by
  induction h with
  | stop hnext =>
    obtain ⟨hmark, htakes⟩ := reads_nextIn hnext
    exact .stop hmark.symm htakes
  | wrap hnext hrefill hquantifier _ hrefill' ih =>
    obtain ⟨hmark, htakes⟩ := reads_nextIn hnext
    obtain ⟨token, htakes₃, htaken⟩ := reads_bump hquantifier
    have htakes₂ := htakes.after (reads_refill hrefill)
    exact .wrap hmark.symm (htakes₂.after htakes₃) (fun hsane => htaken (htakes₂.sane hsane)) ih
      (reads_refill hrefill')

theorem quantifiedRun (h : Reads (quantified room operand) s f s') :
    QuantifiedRun operand s f s' :=
  (quantifiedSteps h).run

/-- Further operands of a sequence, as long as an atom is ahead. -/
inductive FactorsRun (input : Input) (room : Nat) (inside : Option (Parser Forest)) :
    ParseState → Forest → ParseState → Prop where
  | stop {s s' : ParseState} (hnext : s.next.any KindSet.atomFirst.contains = false)
      (htakes : s.Takes [] s') : FactorsRun input room inside s [] s'
  | more {operand rest : Forest} {s s₁ s₂ s' : ParseState}
      (hnext : s.next.any KindSet.atomFirst.contains = true) (htakes : s.Takes [] s₁)
      (hoperand : Reads (modified input room inside) s₁ operand s₂)
      (hrest : FactorsRun input room inside s₂ rest s') :
      FactorsRun input room inside s (operand ++ rest) s'

theorem FactorsSteps.run (h : FactorsSteps input room inside s f s') :
    FactorsRun input room inside s f s' := by
  induction h with
  | stop hnext =>
    obtain ⟨hnone, htakes⟩ := reads_nextIn hnext
    exact .stop hnone.symm htakes
  | more hnext hoperand _ ih =>
    obtain ⟨hmore, htakes⟩ := reads_nextIn hnext
    exact .more hmore.symm htakes hoperand ih

/-- Further operands of a choice, as long as a bar is ahead. -/
inductive BranchesRun (input : Input) (room : Nat) (inside : Option (Parser Forest)) :
    ParseState → Forest → ParseState → Prop where
  | stop {s s' : ParseState} (hnext : s.next ≠ some .pipe) (htakes : s.Takes [] s') :
      BranchesRun input room inside s [] s'
  | more {token : Token} {bar operand rest : Forest} {s s₁ s₂ s' : ParseState}
      (hkind : token.kind = .pipe) (htakes : s.Takes [token] s₁)
      (htaken : s.Sane → Taken bar token)
      (hoperand : Reads (concat input room inside) s₁ operand s₂)
      (hrest : BranchesRun input room inside s₂ rest s') :
      BranchesRun input room inside s (bar ++ operand ++ rest) s'

theorem BranchesSteps.run (h : BranchesSteps input room inside s f s') :
    BranchesRun input room inside s f s' := by
  induction h with
  | stop hbar =>
    rcases reads_eat? hbar with ⟨bar, token, heq, -⟩ | ⟨-, hnext, htakes⟩
    · cases heq
    · exact .stop hnext htakes
  | more hbar hoperand _ ih =>
    rcases reads_eat? hbar with ⟨bar, token, heq, hkind, htakes, htaken⟩ | ⟨heq, -⟩
    · cases heq
      exact .more hkind htakes htaken hoperand ih
    · cases heq

/-! ### Operands -/

inductive ModifiedRun (input : Input) (room : Nat) (inside : Option (Parser Forest))
    (s : ParseState) : Forest → ParseState → Prop where
  | run {blanks : List Token} {operand whole : Forest} {s₁ s₂ s' : ParseState}
      (htakes : s.Takes [] s₁) (hoperand : Reads (atomic input inside) s₁ operand s₂)
      (hwhole : Reads (quantified room operand) s₂ whole s') :
      ModifiedRun input room inside s (blanks.map .leaf ++ whole) s'

theorem modifiedRun (h : Reads (modified input room inside) s f s') :
    ModifiedRun input room inside s f s' := by
  cases modifiedSteps h with
  | steps hflush hoperand hwhole =>
    obtain ⟨rfl, htakes⟩ := reads_flush hflush
    exact .run htakes hoperand hwhole

/-- A sequence has no operand, one operand, or more. -/
inductive ConcatRun (input : Input) (room : Nat) (inside : Option (Parser Forest))
    (s : ParseState) : Forest → ParseState → Prop where
  | missing {s' : ParseState} (hnext : s.next.any KindSet.atomFirst.contains = false)
      (hmoves : s.Moves [] s') (hdirty : s.Sane → s'.reports ≠ []) :
      ConcatRun input room inside s [] s'
  | one {blanks : List Token} {first : Forest} {s₁ s₂ s' : ParseState}
      (htakes : s.Takes [] s₁) (hfirst : Reads (modified input room inside) s₁ first s₂)
      (hnext : s₂.next.any KindSet.atomFirst.contains = false) (hend : s₂.Takes [] s') :
      ConcatRun input room inside s (blanks.map .leaf ++ first) s'
  | more {blanks : List Token} {first rest : Forest} {s₁ s₂ s₃ s' : ParseState}
      (htakes : s.Takes [] s₁) (hfirst : Reads (modified input room inside) s₁ first s₂)
      (hnext : s₂.next.any KindSet.atomFirst.contains = true) (htakes₃ : s₂.Takes [] s₃)
      (hrest : FactorsRun input room inside s₃ rest s') :
      ConcatRun input room inside s (blanks.map .leaf ++ [.node .concat (first ++ rest)]) s'

theorem concatRun (h : Reads (concat input room inside) s f s') :
    ConcatRun input room inside s f s' := by
  cases concatSteps h with
  | missing hnext hreport =>
    obtain ⟨hnone, htakes⟩ := reads_nextIn hnext
    obtain ⟨hmoves, hdirty⟩ := reads_report hreport
    exact .missing hnone.symm (htakes.toMoves.after hmoves) fun hsane => hdirty (htakes.sane hsane)
  | one hnext hflush hfirst hend =>
    obtain ⟨rfl, htakes⟩ := reads_flush hflush
    obtain ⟨hnone, htakes'⟩ := reads_nextIn hend
    exact .one ((reads_nextIn hnext).2.after htakes) hfirst hnone.symm htakes'
  | more hnext hflush hfirst hmore hrest =>
    obtain ⟨rfl, htakes⟩ := reads_flush hflush
    obtain ⟨hmore, htakes'⟩ := reads_nextIn hmore
    exact .more ((reads_nextIn hnext).2.after htakes) hfirst hmore.symm htakes' hrest.run

/-- A choice has one operand or more. -/
inductive UnionRun (input : Input) (room : Nat) (inside : Option (Parser Forest))
    (s : ParseState) : Forest → ParseState → Prop where
  | one {blanks : List Token} {first : Forest} {s₁ s₂ s' : ParseState}
      (htakes : s.Takes [] s₁) (hfirst : Reads (concat input room inside) s₁ first s₂)
      (hnext : s₂.next ≠ some .pipe) (hend : s₂.Takes [] s') :
      UnionRun input room inside s (blanks.map .leaf ++ first) s'
  | more {blanks : List Token} {first rest : Forest} {s₁ s₂ s₃ s' : ParseState}
      (htakes : s.Takes [] s₁) (hfirst : Reads (concat input room inside) s₁ first s₂)
      (hnext : s₂.next = some .pipe) (htakes₃ : s₂.Takes [] s₃)
      (hrest : BranchesRun input room inside s₃ rest s') :
      UnionRun input room inside s (blanks.map .leaf ++ [.node .alt (first ++ rest)]) s'

theorem unionRun (h : Reads (union input room inside) s f s') :
    UnionRun input room inside s f s' := by
  cases unionSteps h with
  | one hflush hfirst hend =>
    obtain ⟨rfl, htakes⟩ := reads_flush hflush
    obtain ⟨hnone, htakes'⟩ := reads_nextIs hend
    exact .one htakes hfirst (of_decide_eq_false hnone.symm) htakes'
  | more hflush hfirst hmore hrest =>
    obtain ⟨rfl, htakes⟩ := reads_flush hflush
    obtain ⟨hmore, htakes'⟩ := reads_nextIs hmore
    exact .more htakes hfirst (of_decide_eq_true hmore.symm) htakes' hrest.run

/-- What reads the inside of the groups of a regex with some room. -/
def insideOf (input : Input) : Nat → Option (Parser Forest)
  | 0 => none
  | room + 1 => some (regex input room)

theorem regex_eq (room : Nat) : regex input room = union input room (insideOf input room) := by
  cases room <;> rfl

/-! ### Atoms -/

/-- A report that is made on a condition. -/
structure ReportsIf (c : Prop) (s s' : ParseState) : Prop where
  moves : s.Moves [] s'
  dirty : c → s.Sane → s'.reports ≠ []
  takes : ¬ c → s.Takes [] s'

theorem MayReport.reportsIf {c : Prop} {kind : DiagnosticKind} {related : List Related}
    (h : MayReport input c kind related s s') : ReportsIf c s s' where
  moves := by
    by_cases hc : c
    · obtain ⟨u, hreport⟩ := h.made hc
      exact (reads_report hreport).1
    · rw [h.skipped hc]
      exact .refl
  dirty hc := by
    obtain ⟨u, hreport⟩ := h.made hc
    exact (reads_report hreport).2
  takes hc := by
    rw [h.skipped hc]
    exact .refl

inductive ReferenceRun (s : ParseState) : Forest → ParseState → Prop where
  | run {token : Token} {bracket : Forest} {name closing : Option Forest}
      {s₁ s₂ s₃ s₄ s' : ParseState} (hopening : s.Takes [token] s₁)
      (hbracket : s.Sane → Taken bracket token) (hname : Reads (eat? .id) s₁ name s₂)
      (hmissing : ReportsIf (name.isNone = true) s₂ s₃)
      (hclosing : Reads (eat? .angleClose) s₃ closing s₄)
      (hunclosed : ReportsIf (closing.isNone = true) s₄ s') :
      ReferenceRun s [.node .subExprRef (bracket ++ name.getD [] ++ closing.getD [])] s'

theorem referenceRun (h : Reads (reference input) s f s') : ReferenceRun s f s' := by
  cases referenceSteps h with
  | steps hspan hbracket hname hmissing hclosing hunclosed =>
    have htakes := reads_nextSpan hspan
    obtain ⟨token, hopening, htaken⟩ := reads_bump hbracket
    exact .run (htakes.after hopening) (fun hsane => htaken (htakes.sane hsane)) hname
      hmissing.reportsIf hclosing hunclosed.reportsIf

/-- Nothing is read in a group before a closing parenthesis, which is reported, nor at the end of
the text. -/
inductive GroupBody (reader : Parser Forest) (s : ParseState) : Forest → ParseState → Prop where
  | empty {s' : ParseState} (hnext : s.next = some .parenClose) (hmoves : s.Moves [] s')
      (hdirty : s.Sane → s'.reports ≠ []) : GroupBody reader s [] s'
  | ended {s' : ParseState} (hwords : s.words = []) (htakes : s.Takes [] s') :
      GroupBody reader s [] s'
  | read {body : Forest} {s₁ s' : ParseState} (htakes : s.Takes [] s₁)
      (hbody : Reads reader s₁ body s') : GroupBody reader s body s'

theorem GroupInside.body {reader : Parser Forest} (h : GroupInside input reader s f s') :
    GroupBody reader s f s' := by
  cases h with
  | empty hclosed hended hreport =>
    obtain ⟨hnext, htakes₁⟩ := reads_nextIs hclosed
    have htakes := htakes₁.after (reads_atEnd hended).2
    obtain ⟨hmoves, hdirty⟩ := reads_report hreport
    exact .empty (of_decide_eq_true hnext.symm) (htakes.toMoves.after hmoves)
      fun hsane => hdirty (htakes.sane hsane)
  | ended hclosed hended =>
    have htakes := (reads_nextIs hclosed).2
    obtain ⟨hnone, htakes'⟩ := reads_atEnd hended
    refine .ended ?_ (htakes.after htakes')
    rw [htakes.words_eq]
    exact List.isEmpty_iff.1 hnone.symm
  | read hclosed hended hbody =>
    exact .read ((reads_nextIs hclosed).2.after (reads_atEnd hended).2) hbody

inductive GroupRun (reader : Parser Forest) (s : ParseState) : Forest → ParseState → Prop where
  | run {token : Token} {bracket body : Forest} {closing : Option Forest}
      {s₁ s₂ s₃ s₄ s' : ParseState} (hopening : s.Takes [token] s₁)
      (hbracket : s.Sane → Taken bracket token) (hbody : GroupBody reader s₁ body s₂)
      (hclosing : Reads (eat? .parenClose) s₂ closing s₃)
      (hunclosed : ReportsIf (closing.isNone = true) s₃ s₄) (hend : s₄.Takes [] s') :
      GroupRun reader s [.node .group (bracket ++ body ++ closing.getD [])] s'

theorem groupRun (h : Reads (group input inside) s f s') :
    ∃ reader, inside = some reader ∧ GroupRun reader s f s' := by
  obtain ⟨reader, hreader, hsteps⟩ := groupSteps h
  refine ⟨reader, hreader, ?_⟩
  cases hsteps with
  | steps hrefill hspan hbracket hbody hclosing hunclosed hrefill' =>
    have htakes := (reads_refill hrefill).after (reads_nextSpan hspan)
    obtain ⟨token, hopening, htaken⟩ := reads_bump hbracket
    exact .run (htakes.after hopening) (fun hsane => htaken (htakes.sane hsane)) hbody.body
      hclosing hunclosed.reportsIf (reads_refill hrefill')

theorem reads_leaf {kind : SyntaxKind} (h : Reads (leaf kind) s f s') :
    ∃ token taken, s.Takes [token] s' ∧ (s.Sane → Taken taken token) ∧ f = [.node kind taken] := by
  obtain ⟨taken, hbump, rfl⟩ := exists_bump_of_leaf h
  obtain ⟨token, htakes, htaken⟩ := reads_bump hbump
  exact ⟨token, taken, htakes, htaken, rfl⟩

/-- The kind of the next token tells which atom is read. -/
inductive AtomicRun (input : Input) (inside : Option (Parser Forest)) (s : ParseState)
    (f : Forest) (s' : ParseState) : Option SyntaxKind → Prop where
  | group (h : Reads (group input inside) s f s') : AtomicRun input inside s f s' (some .parenOpen)
  | reference (h : Reads (reference input) s f s') :
      AtomicRun input inside s f s' (some .angleOpen)
  | ident (h : Reads (leaf .ident) s f s') : AtomicRun input inside s f s' (some .id)
  | anchor {kind : SyntaxKind} (hkind : KindSet.anchors.contains kind = true)
      (h : Reads (leaf .anchor) s f s') : AtomicRun input inside s f s' (some kind)
  | missing {next : Option SyntaxKind} (hnext : next.any KindSet.atomFirst.contains = false)
      (hmoves : s.Moves [] s') (hdirty : s.Sane → s'.reports ≠ []) :
      AtomicRun input inside s f s' next

theorem atomicRun (h : Reads (atomic input inside) s f s') :
    ∃ s₁, s.Takes [] s₁ ∧ AtomicRun input inside s₁ f s' s.next := by
  obtain ⟨s₁, hlook, hsteps⟩ := atomicSteps h
  refine ⟨s₁, (reads_look hlook).2, ?_⟩
  generalize s.next = next at hsteps
  cases hsteps with
  | group h => exact .group h
  | reference h => exact .reference h
  | ident h => exact .ident h
  | anchor hkind h => exact .anchor hkind h
  | missing _ hnext hreport =>
    obtain ⟨hmoves, hdirty⟩ := reads_report hreport
    exact .missing hnext hmoves hdirty

end CallChain.Parser
