import CallChain.Proofs.Grammar.Runs

/-!
# Steps of productions

The steps that a run of each production consists of, one after the other, and all that these steps
can be. Loops are relations of their own, so that fuel is not seen outside of this module.

* `unionSteps`, `concatSteps`, `modifiedSteps`, `atomicSteps`: operands.
* `referenceSteps`, `groupSteps`: what stands between brackets.
* `rootSteps`: whole texts.
-/

namespace CallChain.Parser

open ParseState

variable {s s' : ParseState} {f operand : Forest} {input : Input} {room fuel : Nat}
  {inside : Option (Parser Forest)}

/-! ### Reports on a condition -/

/-- A report that is made on a condition; otherwise nothing happens. -/
structure MayReport (input : Input) (c : Prop) (kind : DiagnosticKind) (related : List Related)
    (s s' : ParseState) : Prop where
  made : c → ∃ u, Reads (report input kind related) s u s'
  skipped : ¬ c → s' = s

/-- A report that is made on a condition, before the rest of a run. -/
theorem exists_mayReport {α : Type} {a : α} {c : Prop} [Decidable c] {kind : DiagnosticKind}
    {related : List Related} {k : Unit → Parser α}
    (h : Reads (if c then report input kind related >>= k else k ()) s a s') :
    ∃ s₁, MayReport input c kind related s s₁ ∧ Reads (k ()) s₁ a s' := by
  split at h
  next hc =>
    obtain ⟨u, s₁, hreport, h⟩ := reads_bind.1 h
    exact ⟨s₁, ⟨fun _ => ⟨u, hreport⟩, fun hnot => absurd hc hnot⟩, h⟩
  next hc => exact ⟨s, ⟨fun hyes => absurd hyes hc, fun _ => rfl⟩, h⟩

/-! ### Words set aside -/

inductive SetAsideSteps (input : Input) (s : ParseState) : Forest → ParseState → Prop where
  | ended {u : Unit} {s₁ s' : ParseState}
      (hreport : Reads (report input .unexpectedToken []) s u s₁)
      (hended : Reads atEnd s₁ true s') : SetAsideSteps input s [] s'
  | word {u : Unit} {before word : Forest} {s₁ s₂ s₃ s' : ParseState}
      (hreport : Reads (report input .unexpectedToken []) s u s₁)
      (hended : Reads atEnd s₁ false s₂) (hflush : Reads flush s₂ before s₃)
      (hbump : Reads bump s₃ word s') :
      SetAsideSteps input s (before ++ [.node .error word]) s'

theorem setAsideSteps (h : Reads (setAside input) s f s') : SetAsideSteps input s f s' := by
  obtain ⟨u, s₁, hreport, h⟩ := reads_bind.1 h
  obtain ⟨ended, s₂, hended, h⟩ := reads_bind.1 h
  cases ended with
  | true =>
    obtain ⟨rfl, rfl⟩ := reads_pure.1 h
    exact .ended hreport hended
  | false =>
    obtain ⟨before, s₃, hflush, h⟩ := reads_bind.1 h
    obtain ⟨word, s₄, hbump, h⟩ := reads_bind.1 h
    obtain ⟨rfl, rfl⟩ := reads_pure.1 h
    exact .word hreport hended hflush hbump

/-! ### Atoms -/

theorem exists_bump_of_leaf {kind : SyntaxKind} (h : Reads (leaf kind) s f s') :
    ∃ taken, Reads bump s taken s' ∧ f = [.node kind taken] := by
  obtain ⟨taken, s₁, hbump, h⟩ := reads_bind.1 h
  obtain ⟨rfl, rfl⟩ := reads_pure.1 h
  exact ⟨taken, hbump, rfl⟩

inductive ReferenceSteps (input : Input) (s : ParseState) : Forest → ParseState → Prop where
  | steps {opening : Span} {bracket : Forest} {name closing : Option Forest}
      {s₁ s₂ s₃ s₄ s₅ s' : ParseState} (hspan : Reads (nextSpan input) s opening s₁)
      (hbracket : Reads bump s₁ bracket s₂) (hname : Reads (eat? .id) s₂ name s₃)
      (hmissing : MayReport input (name.isNone = true) .expectedSubExpressionName [] s₃ s₄)
      (hclosing : Reads (eat? .angleClose) s₄ closing s₅)
      (hunclosed : MayReport input (closing.isNone = true) .unclosedSubExpressionRef
        [⟨"reference started here", opening⟩] s₅ s') :
      ReferenceSteps input s [.node .subExprRef (bracket ++ name.getD [] ++ closing.getD [])] s'

theorem referenceSteps (h : Reads (reference input) s f s') : ReferenceSteps input s f s' := by
  obtain ⟨opening, s₁, hspan, h⟩ := reads_bind.1 h
  obtain ⟨bracket, s₂, hbracket, h⟩ := reads_bind.1 h
  obtain ⟨name, s₃, hname, h⟩ := reads_bind.1 h
  obtain ⟨s₄, hmissing, h⟩ := exists_mayReport h
  obtain ⟨closing, s₅, hclosing, h⟩ := reads_bind.1 h
  obtain ⟨s₆, hunclosed, h⟩ := exists_mayReport h
  obtain ⟨rfl, rfl⟩ := reads_pure.1 h
  exact .steps hspan hbracket hname hmissing hclosing hunclosed

/-- Between the parentheses of a group. Nothing is read before a closing parenthesis, which is
reported, nor at the end of the text. -/
inductive GroupInside (input : Input) (reader : Parser Forest) (s : ParseState) :
    Forest → ParseState → Prop where
  | empty {ended : Bool} {u : Unit} {s₁ s₂ s' : ParseState}
      (hclosed : Reads (nextIs .parenClose) s true s₁) (hended : Reads atEnd s₁ ended s₂)
      (hreport : Reads (report input .expectedExpression []) s₂ u s') :
      GroupInside input reader s [] s'
  | ended {s₁ s' : ParseState} (hclosed : Reads (nextIs .parenClose) s false s₁)
      (hended : Reads atEnd s₁ true s') : GroupInside input reader s [] s'
  | read {body : Forest} {s₁ s₂ s' : ParseState}
      (hclosed : Reads (nextIs .parenClose) s false s₁) (hended : Reads atEnd s₁ false s₂)
      (hbody : Reads reader s₂ body s') : GroupInside input reader s body s'

inductive GroupSteps (input : Input) (reader : Parser Forest) (s : ParseState) :
    Forest → ParseState → Prop where
  | steps {opening : Span} {bracket body : Forest} {closing : Option Forest} {u u' : Unit}
      {s₁ s₂ s₃ s₄ s₅ s₆ s' : ParseState} (hrefill : Reads refill s u s₁)
      (hspan : Reads (nextSpan input) s₁ opening s₂) (hbracket : Reads bump s₂ bracket s₃)
      (hbody : GroupInside input reader s₃ body s₄)
      (hclosing : Reads (eat? .parenClose) s₄ closing s₅)
      (hunclosed : MayReport input (closing.isNone = true) .unclosedGroup
        [⟨"group started here", opening⟩] s₅ s₆) (hrefill' : Reads refill s₆ u' s') :
      GroupSteps input reader s [.node .group (bracket ++ body ++ closing.getD [])] s'

/-- A group has an inside that reads a regex. -/
theorem groupSteps (h : Reads (group input inside) s f s') :
    ∃ reader, inside = some reader ∧ GroupSteps input reader s f s' := by
  unfold group at h
  split at h
  · exact absurd h not_reads_throw
  next reader =>
    refine ⟨reader, rfl, ?_⟩
    obtain ⟨u, s₁, hrefill, h⟩ := reads_bind.1 h
    obtain ⟨opening, s₂, hspan, h⟩ := reads_bind.1 h
    obtain ⟨bracket, s₃, hbracket, h⟩ := reads_bind.1 h
    obtain ⟨closed, s₄, hclosed, h⟩ := reads_bind.1 h
    obtain ⟨ended, s₅, hended, h⟩ := reads_bind.1 h
    -- The three ways to the body meet again behind it.
    have hbody : ∃ body s₆, GroupInside input reader s₃ body s₆ ∧ Reads (do
        let closing ← eat? .parenClose
        if closing.isNone then
          report input .unclosedGroup [⟨"group started here", opening⟩]
        refill
        return [.node .group (bracket ++ body ++ closing.getD [])]) s₆ f s' := by
      cases closed with
      | true =>
        obtain ⟨u, s₆, hreport, h⟩ := reads_bind.1 h
        obtain ⟨body, s₇, hpure, h⟩ := reads_bind.1 h
        obtain ⟨rfl, rfl⟩ := reads_pure.1 hpure
        exact ⟨_, _, .empty hclosed hended hreport, h⟩
      | false =>
        cases ended with
        | true =>
          obtain ⟨body, s₆, hpure, h⟩ := reads_bind.1 h
          obtain ⟨rfl, rfl⟩ := reads_pure.1 hpure
          exact ⟨_, _, .ended hclosed hended, h⟩
        | false =>
          obtain ⟨body, s₆, hbody, h⟩ := reads_bind.1 h
          exact ⟨_, _, .read hclosed hended hbody, h⟩
    obtain ⟨body, s₆, hbody, h⟩ := hbody
    obtain ⟨closing, s₇, hclosing, h⟩ := reads_bind.1 h
    obtain ⟨s₈, hunclosed, h⟩ := exists_mayReport h
    obtain ⟨u, s₉, hrefill', h⟩ := reads_bind.1 h
    obtain ⟨rfl, rfl⟩ := reads_pure.1 h
    exact .steps hrefill hspan hbracket hbody hclosing hunclosed hrefill'

/-- The kind of the next token tells which atom is read. -/
inductive AtomicSteps (input : Input) (inside : Option (Parser Forest)) (s : ParseState)
    (f : Forest) (s' : ParseState) : Option SyntaxKind → Prop where
  | group (h : Reads (group input inside) s f s') :
      AtomicSteps input inside s f s' (some .parenOpen)
  | reference (h : Reads (reference input) s f s') :
      AtomicSteps input inside s f s' (some .angleOpen)
  | ident (h : Reads (leaf .ident) s f s') : AtomicSteps input inside s f s' (some .id)
  | anchor {kind : SyntaxKind} (hkind : KindSet.anchors.contains kind = true)
      (h : Reads (leaf .anchor) s f s') : AtomicSteps input inside s f s' (some kind)
  | missing {next : Option SyntaxKind} {u : Unit} (hnone : f = [])
      (hnext : next.any KindSet.atomFirst.contains = false)
      (hreport : Reads (report input .expectedExpression []) s u s') :
      AtomicSteps input inside s f s' next

theorem atomicSteps (h : Reads (atomic input inside) s f s') :
    ∃ s₁, Reads look s s.next s₁ ∧ AtomicSteps input inside s₁ f s' s.next := by
  obtain ⟨k, s₁, hlook, h⟩ := reads_bind.1 h
  obtain rfl := (reads_look hlook).1
  refine ⟨s₁, hlook, ?_⟩
  split at h
  next hnext =>
    rw [hnext]
    exact .group h
  next hnext =>
    rw [hnext]
    exact .reference h
  next hnext =>
    rw [hnext]
    exact .ident h
  next kind hgroup hreference hident hnext =>
    rw [hnext]
    split at h
    next hkind => exact .anchor hkind h
    next hkind =>
      obtain ⟨u, s₂, hreport, h⟩ := reads_bind.1 h
      obtain ⟨rfl, rfl⟩ := reads_pure.1 h
      refine .missing rfl ?_ hreport
      show KindSet.atomFirst.contains kind = false
      cases kind <;> first | rfl | contradiction
  next hnext =>
    rw [hnext]
    obtain ⟨u, s₂, hreport, h⟩ := reads_bind.1 h
    obtain ⟨rfl, rfl⟩ := reads_pure.1 h
    exact .missing rfl rfl hreport

/-! ### Operands -/

/-- The quantifiers behind an operand, each around what stands before it. -/
inductive QuantifiedSteps : Forest → ParseState → Forest → ParseState → Prop where
  | stop {operand : Forest} {s s' : ParseState} (hnext : Reads (nextIn .quantifiers) s false s') :
      QuantifiedSteps operand s operand s'
  | wrap {operand quantifier f : Forest} {u u' : Unit} {s s₁ s₂ s₃ s₄ s' : ParseState}
      (hnext : Reads (nextIn .quantifiers) s true s₁) (hrefill : Reads refill s₁ u s₂)
      (hquantifier : Reads bump s₂ quantifier s₃)
      (hrest : QuantifiedSteps [.node .quantified (operand ++ quantifier)] s₃ f s₄)
      (hrefill' : Reads refill s₄ u' s') : QuantifiedSteps operand s f s'

theorem quantifiedSteps (h : Reads (quantified room operand) s f s') :
    QuantifiedSteps operand s f s' := by
  induction room generalizing operand s f s' with
  | zero =>
    unfold quantified at h
    obtain ⟨b, s₁, hnext, h⟩ := reads_bind.1 h
    cases b with
    | true => exact absurd h not_reads_throw
    | false =>
      obtain ⟨rfl, rfl⟩ := reads_pure.1 h
      exact .stop hnext
  | succ room ih =>
    unfold quantified at h
    obtain ⟨b, s₁, hnext, h⟩ := reads_bind.1 h
    cases b with
    | true =>
      obtain ⟨u, s₂, hrefill, h⟩ := reads_bind.1 h
      obtain ⟨quantifier, s₃, hquantifier, h⟩ := reads_bind.1 h
      obtain ⟨whole, s₄, hwhole, h⟩ := reads_bind.1 h
      obtain ⟨u', s₅, hrefill', h⟩ := reads_bind.1 h
      obtain ⟨rfl, rfl⟩ := reads_pure.1 h
      exact .wrap hnext hrefill hquantifier (ih hwhole) hrefill'
    | false =>
      obtain ⟨rfl, rfl⟩ := reads_pure.1 h
      exact .stop hnext

inductive ModifiedSteps (input : Input) (room : Nat) (inside : Option (Parser Forest))
    (s : ParseState) : Forest → ParseState → Prop where
  | steps {before operand whole : Forest} {s₁ s₂ s' : ParseState} (hflush : Reads flush s before s₁)
      (hoperand : Reads (atomic input inside) s₁ operand s₂)
      (hwhole : Reads (quantified room operand) s₂ whole s') :
      ModifiedSteps input room inside s (before ++ whole) s'

theorem modifiedSteps (h : Reads (modified input room inside) s f s') :
    ModifiedSteps input room inside s f s' := by
  obtain ⟨before, s₁, hflush, h⟩ := reads_bind.1 h
  obtain ⟨operand, s₂, hoperand, h⟩ := reads_bind.1 h
  obtain ⟨whole, s₃, hwhole, h⟩ := reads_bind.1 h
  obtain ⟨rfl, rfl⟩ := reads_pure.1 h
  exact .steps hflush hoperand hwhole

/-- Further operands of a sequence, as long as an atom is ahead. -/
inductive FactorsSteps (input : Input) (room : Nat) (inside : Option (Parser Forest)) :
    ParseState → Forest → ParseState → Prop where
  | stop {s s' : ParseState} (hnext : Reads (nextIn .atomFirst) s false s') :
      FactorsSteps input room inside s [] s'
  | more {operand rest : Forest} {s s₁ s₂ s' : ParseState}
      (hnext : Reads (nextIn .atomFirst) s true s₁)
      (hoperand : Reads (modified input room inside) s₁ operand s₂)
      (hrest : FactorsSteps input room inside s₂ rest s') :
      FactorsSteps input room inside s (operand ++ rest) s'

theorem factorsSteps (h : Reads (factors input room inside fuel) s f s') :
    FactorsSteps input room inside s f s' := by
  induction fuel generalizing s f s' with
  | zero =>
    unfold factors at h
    obtain ⟨b, s₁, hnext, h⟩ := reads_bind.1 h
    cases b with
    | true =>
      obtain ⟨t, s₂, -, h⟩ := reads_bind.1 h
      exact absurd h not_reads_throw
    | false =>
      obtain ⟨rfl, rfl⟩ := reads_pure.1 h
      exact .stop hnext
  | succ fuel ih =>
    unfold factors at h
    obtain ⟨b, s₁, hnext, h⟩ := reads_bind.1 h
    cases b with
    | true =>
      obtain ⟨operand, s₂, hoperand, h⟩ := reads_bind.1 h
      obtain ⟨rest, s₃, hrest, h⟩ := reads_bind.1 h
      obtain ⟨rfl, rfl⟩ := reads_pure.1 h
      exact .more hnext hoperand (ih hrest)
    | false =>
      obtain ⟨rfl, rfl⟩ := reads_pure.1 h
      exact .stop hnext

/-- A sequence has no operand, one operand, or more. -/
inductive ConcatSteps (input : Input) (room : Nat) (inside : Option (Parser Forest))
    (s : ParseState) : Forest → ParseState → Prop where
  | missing {u : Unit} {s₁ s' : ParseState} (hnext : Reads (nextIn .atomFirst) s false s₁)
      (hreport : Reads (report input .expectedExpression []) s₁ u s') :
      ConcatSteps input room inside s [] s'
  | one {before first : Forest} {s₁ s₂ s₃ s' : ParseState}
      (hnext : Reads (nextIn .atomFirst) s true s₁) (hflush : Reads flush s₁ before s₂)
      (hfirst : Reads (modified input room inside) s₂ first s₃)
      (hend : Reads (nextIn .atomFirst) s₃ false s') :
      ConcatSteps input room inside s (before ++ first) s'
  | more {before first rest : Forest} {s₁ s₂ s₃ s₄ s' : ParseState}
      (hnext : Reads (nextIn .atomFirst) s true s₁) (hflush : Reads flush s₁ before s₂)
      (hfirst : Reads (modified input room inside) s₂ first s₃)
      (hmore : Reads (nextIn .atomFirst) s₃ true s₄)
      (hrest : FactorsSteps input room inside s₄ rest s') :
      ConcatSteps input room inside s (before ++ [.node .concat (first ++ rest)]) s'

theorem concatSteps (h : Reads (concat input room inside) s f s') :
    ConcatSteps input room inside s f s' := by
  obtain ⟨b, s₁, hnext, h⟩ := reads_bind.1 h
  cases b with
  | true =>
    obtain ⟨before, s₂, hflush, h⟩ := reads_bind.1 h
    obtain ⟨first, s₃, hfirst, h⟩ := reads_bind.1 h
    obtain ⟨b, s₄, hmore, h⟩ := reads_bind.1 h
    cases b with
    | true =>
      obtain ⟨t, s₅, hget, h⟩ := reads_bind.1 h
      obtain ⟨rfl, rfl⟩ := reads_get.1 hget
      obtain ⟨rest, s₆, hrest, h⟩ := reads_bind.1 h
      obtain ⟨rfl, rfl⟩ := reads_pure.1 h
      exact .more hnext hflush hfirst hmore (factorsSteps hrest)
    | false =>
      obtain ⟨rfl, rfl⟩ := reads_pure.1 h
      exact .one hnext hflush hfirst hmore
  | false =>
    obtain ⟨u, s₂, hreport, h⟩ := reads_bind.1 h
    obtain ⟨rfl, rfl⟩ := reads_pure.1 h
    exact .missing hnext hreport

/-- Further operands of a choice, as long as a bar is ahead. -/
inductive BranchesSteps (input : Input) (room : Nat) (inside : Option (Parser Forest)) :
    ParseState → Forest → ParseState → Prop where
  | stop {s s' : ParseState} (hbar : Reads (eat? .pipe) s none s') :
      BranchesSteps input room inside s [] s'
  | more {bar operand rest : Forest} {s s₁ s₂ s' : ParseState}
      (hbar : Reads (eat? .pipe) s (some bar) s₁)
      (hoperand : Reads (concat input room inside) s₁ operand s₂)
      (hrest : BranchesSteps input room inside s₂ rest s') :
      BranchesSteps input room inside s (bar ++ operand ++ rest) s'

theorem branchesSteps (h : Reads (branches input room inside fuel) s f s') :
    BranchesSteps input room inside s f s' := by
  induction fuel generalizing s f s' with
  | zero =>
    unfold branches at h
    obtain ⟨o, s₁, hbar, h⟩ := reads_bind.1 h
    cases o with
    | none =>
      obtain ⟨rfl, rfl⟩ := reads_pure.1 h
      exact .stop hbar
    | some bar =>
      obtain ⟨t, s₂, -, h⟩ := reads_bind.1 h
      exact absurd h not_reads_throw
  | succ fuel ih =>
    unfold branches at h
    obtain ⟨o, s₁, hbar, h⟩ := reads_bind.1 h
    cases o with
    | none =>
      obtain ⟨rfl, rfl⟩ := reads_pure.1 h
      exact .stop hbar
    | some bar =>
      obtain ⟨operand, s₂, hoperand, h⟩ := reads_bind.1 h
      obtain ⟨rest, s₃, hrest, h⟩ := reads_bind.1 h
      obtain ⟨rfl, rfl⟩ := reads_pure.1 h
      exact .more hbar hoperand (ih hrest)

/-- A choice has one operand or more. -/
inductive UnionSteps (input : Input) (room : Nat) (inside : Option (Parser Forest))
    (s : ParseState) : Forest → ParseState → Prop where
  | one {before first : Forest} {s₁ s₂ s' : ParseState} (hflush : Reads flush s before s₁)
      (hfirst : Reads (concat input room inside) s₁ first s₂)
      (hend : Reads (nextIs .pipe) s₂ false s') :
      UnionSteps input room inside s (before ++ first) s'
  | more {before first rest : Forest} {s₁ s₂ s₃ s' : ParseState} (hflush : Reads flush s before s₁)
      (hfirst : Reads (concat input room inside) s₁ first s₂)
      (hmore : Reads (nextIs .pipe) s₂ true s₃)
      (hrest : BranchesSteps input room inside s₃ rest s') :
      UnionSteps input room inside s (before ++ [.node .alt (first ++ rest)]) s'

theorem unionSteps (h : Reads (union input room inside) s f s') :
    UnionSteps input room inside s f s' := by
  obtain ⟨before, s₁, hflush, h⟩ := reads_bind.1 h
  obtain ⟨first, s₂, hfirst, h⟩ := reads_bind.1 h
  obtain ⟨b, s₃, hmore, h⟩ := reads_bind.1 h
  cases b with
  | true =>
    obtain ⟨t, s₄, hget, h⟩ := reads_bind.1 h
    obtain ⟨rfl, rfl⟩ := reads_get.1 hget
    obtain ⟨rest, s₅, hrest, h⟩ := reads_bind.1 h
    obtain ⟨rfl, rfl⟩ := reads_pure.1 h
    exact .more hflush hfirst hmore (branchesSteps hrest)
  | false =>
    obtain ⟨rfl, rfl⟩ := reads_pure.1 h
    exact .one hflush hfirst hmore

/-! ### Whole texts -/

/-- Reading goes on behind a word that is set aside, with a regex if an atom is ahead. -/
inductive MoreSteps (input : Input) (room : Nat) (s : ParseState) : Forest → ParseState → Prop where
  | none {s' : ParseState} (hnext : Reads (nextIn .atomFirst) s false s') :
      MoreSteps input room s [] s'
  | regex {more : Forest} {s₁ s' : ParseState} (hnext : Reads (nextIn .atomFirst) s true s₁)
      (hmore : Reads (regex input room) s₁ more s') : MoreSteps input room s more s'

/-- What follows the first regex. -/
inductive LeftoversSteps (input : Input) (room : Nat) :
    ParseState → Forest → ParseState → Prop where
  | stop {s s' : ParseState} (hended : Reads atEnd s true s') : LeftoversSteps input room s [] s'
  | round {misplaced more rest : Forest} {s s₁ s₂ s₃ s' : ParseState}
      (hended : Reads atEnd s false s₁) (hmisplaced : Reads (setAside input) s₁ misplaced s₂)
      (hmore : MoreSteps input room s₂ more s₃) (hrest : LeftoversSteps input room s₃ rest s') :
      LeftoversSteps input room s (misplaced ++ more ++ rest) s'

theorem leftoversSteps (h : Reads (leftovers input room fuel) s f s') :
    LeftoversSteps input room s f s' := by
  induction fuel generalizing s f s' with
  | zero =>
    unfold leftovers at h
    obtain ⟨ended, s₁, hended, h⟩ := reads_bind.1 h
    cases ended with
    | true =>
      obtain ⟨rfl, rfl⟩ := reads_pure.1 h
      exact .stop hended
    | false =>
      obtain ⟨t, s₂, -, h⟩ := reads_bind.1 h
      exact absurd h not_reads_throw
  | succ fuel ih =>
    unfold leftovers at h
    obtain ⟨ended, s₁, hended, h⟩ := reads_bind.1 h
    cases ended with
    | true =>
      obtain ⟨rfl, rfl⟩ := reads_pure.1 h
      exact .stop hended
    | false =>
      obtain ⟨misplaced, s₂, hmisplaced, h⟩ := reads_bind.1 h
      obtain ⟨b, s₃, hnext, h⟩ := reads_bind.1 h
      -- Both ways meet again behind the regex.
      have hmore : ∃ more s₄, MoreSteps input room s₂ more s₄ ∧ Reads (do
          return misplaced ++ more ++ (← leftovers input room fuel)) s₄ f s' := by
        cases b with
        | true =>
          obtain ⟨more, s₄, hmore, h⟩ := reads_bind.1 h
          exact ⟨more, s₄, .regex hnext hmore, h⟩
        | false =>
          obtain ⟨more, s₄, hpure, h⟩ := reads_bind.1 h
          obtain ⟨rfl, rfl⟩ := reads_pure.1 hpure
          exact ⟨[], s₃, .none hnext, h⟩
      obtain ⟨more, s₄, hmore, h⟩ := hmore
      obtain ⟨rest, s₅, hrest, h⟩ := reads_bind.1 h
      obtain ⟨rfl, rfl⟩ := reads_pure.1 h
      exact .round hended hmisplaced hmore (ih hrest)

/-- The whole text. Nothing is read if it has no word. -/
inductive RootSteps (input : Input) (limit : Nat) (s : ParseState) : Tree → ParseState → Prop where
  | empty {u : Unit} {blanks : Forest} {s₁ s₂ s' : ParseState} (hended : Reads atEnd s true s₁)
      (hreport : Reads (report input .expectedExpression []) s₁ u s₂)
      (hflush : Reads flush s₂ blanks s') : RootSteps input limit s (.node .root blanks) s'
  | read {first rest blanks : Forest} {s₁ s₂ s₃ s' : ParseState} (hended : Reads atEnd s false s₁)
      (hfirst : Reads (regex input limit) s₁ first s₂)
      (hrest : LeftoversSteps input limit s₂ rest s₃) (hflush : Reads flush s₃ blanks s') :
      RootSteps input limit s (.node .root (first ++ rest ++ blanks)) s'

theorem rootSteps {limit : Nat} {tree : Tree} (h : Reads (root input limit) s tree s') :
    RootSteps input limit s tree s' := by
  obtain ⟨ended, s₁, hended, h⟩ := reads_bind.1 h
  cases ended with
  | true =>
    obtain ⟨u, s₂, hreport, h⟩ := reads_bind.1 h
    obtain ⟨body, s₃, hbody, h⟩ := reads_bind.1 h
    obtain ⟨rfl, rfl⟩ := reads_pure.1 hbody
    obtain ⟨blanks, s₄, hflush, h⟩ := reads_bind.1 h
    obtain ⟨rfl, rfl⟩ := reads_pure.1 h
    exact .empty hended hreport hflush
  | false =>
    obtain ⟨first, s₂, hfirst, h⟩ := reads_bind.1 h
    obtain ⟨t, s₃, hget, h⟩ := reads_bind.1 h
    obtain ⟨rfl, rfl⟩ := reads_get.1 hget
    obtain ⟨rest, s₄, hrest, h⟩ := reads_bind.1 h
    obtain ⟨body, s₅, hbody, h⟩ := reads_bind.1 h
    obtain ⟨rfl, rfl⟩ := reads_pure.1 hbody
    obtain ⟨blanks, s₆, hflush, h⟩ := reads_bind.1 h
    obtain ⟨rfl, rfl⟩ := reads_pure.1 h
    exact .read hended hfirst (leftoversSteps hrest) hflush

end CallChain.Parser
