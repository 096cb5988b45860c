import CallChain.Proofs.Grammar.Complete
import CallChain.Proofs.Grammar.Reports

/-!
# Trees with gaps

A tree that means something holds no misplaced token, and every node of it has what it needs
(`Tree.isWhole`), with one exception: between the bars of a choice operands may be missing, as long
as two of them are left. These gaps are counted by the bars (`Tree.gaps`). As no node stands for a
missing operand, only the reports tell of it: one for each gap, and no other problem but missing
closing brackets.

* `filled_union`: what is reported about the trees of a production that mean something.
* `parse_gaps`: whole texts.
-/

namespace CallChain

namespace Tree

/-! ### Operands -/

/-- The number of nodes among some trees. -/
def operands (f : Forest) : Nat := f.countP isNode

/-- The number of bars among the tokens directly below a node. -/
def bars (f : Forest) : Nat := (bare f).countP (·.kind = .pipe)

/-- The operands that are missing between the bars of a choice. -/
def vacancies (kind : SyntaxKind) (children : Forest) : Nat :=
  if kind = .alt then bars children + 1 - operands children else 0

mutual

/-- The operands that are missing in the choices of a tree. -/
def gaps : Tree → Nat
  | leaf _ => 0
  | node kind children => vacancies kind children + gapsOf children

def gapsOf : List Tree → Nat
  | [] => 0
  | tree :: trees => gaps tree + gapsOf trees

end

/-- Does a node have the operands, the name or the mark it needs? An error node never does. -/
def isComplete (kind : SyntaxKind) (children : Forest) : Bool :=
  match kind with
  | .root | .group | .quantified => operands children = 1
  | .alt | .concat => 2 ≤ operands children
  | .ident | .subExprRef => (bare children).any (·.kind = .id)
  | .anchor => (bare children).any fun token => KindSet.anchors.contains token.kind
  | _ => false

mutual

/-- Are all nodes of a tree complete? -/
def isWhole : Tree → Bool
  | leaf _ => true
  | node kind children => isComplete kind children && areWhole children

def areWhole : List Tree → Bool
  | [] => true
  | tree :: trees => isWhole tree && areWhole trees

end

variable {f g : Forest} {ts : List Token} {token : Token} {kind : SyntaxKind}

@[simp] theorem operands_append : operands (f ++ g) = operands f + operands g :=
  List.countP_append

@[simp] theorem operands_leaves : operands (ts.map leaf) = 0 :=
  List.countP_eq_zero.2 (List.forall_mem_map.2 fun _ _ => nofun)

@[simp] theorem operands_node : operands [node kind f] = 1 := rfl

@[simp] theorem bars_append : bars (f ++ g) = bars f + bars g := by
  rw [bars, bare_append, List.countP_append, bars, bars]

@[simp] theorem gapsOf_append : gapsOf (f ++ g) = gapsOf f + gapsOf g := by
  induction f with
  | nil => simp [gapsOf]
  | cons tree f ih => rw [List.cons_append, gapsOf, gapsOf, ih, Nat.add_assoc]

@[simp] theorem gapsOf_leaves : gapsOf (ts.map leaf) = 0 := by
  induction ts with
  | nil => rfl
  | cons token ts ih => rw [List.map_cons, gapsOf, gaps, ih]

@[simp] theorem gapsOf_node : gapsOf [node kind f] = vacancies kind f + gapsOf f := by
  simp [gapsOf, gaps]

@[simp] theorem areWhole_append : areWhole (f ++ g) = (areWhole f && areWhole g) := by
  induction f with
  | nil => rfl
  | cons tree f ih => rw [List.cons_append, areWhole, areWhole, ih, Bool.and_assoc]

@[simp] theorem areWhole_leaves : areWhole (ts.map leaf) = true := by
  induction ts with
  | nil => rfl
  | cons token ts ih => rw [List.map_cons, areWhole, isWhole, ih]; rfl

@[simp] theorem areWhole_node :
    areWhole [node kind f] = (isComplete kind f && areWhole f) := by
  simp [areWhole, isWhole]

theorem any_of_firstToken? {test : SyntaxKind → Bool} (h : (firstToken? f test).isSome = true) :
    ((bare f).any fun token => test token.kind) = true := by
  obtain ⟨token, hfound⟩ := Option.isSome_iff_exists.1 h
  obtain ⟨tree, htree, heq⟩ := List.exists_of_findSome?_eq_some hfound
  cases tree with
  | node kind children => cases heq
  | leaf other =>
    refine List.any_eq_true.2 ⟨other, List.mem_filterMap.2 ⟨_, htree, rfl⟩, ?_⟩
    by_contra hno
    dsimp only at heq
    rw [if_neg hno] at heq
    cases heq

end Tree

namespace Regex

open CallChain.Tree

variable {f g : Forest} {kind : SyntaxKind}

/-- All nodes among some trees mean something. -/
def AllMean (f : Forest) : Prop := ∀ meaning ∈ meaningsOf f, meaning.isSome = true

theorem allMean_append : AllMean (f ++ g) ↔ AllMean f ∧ AllMean g := by
  rw [AllMean, meaningsOf_append]
  exact List.forall_mem_append

theorem length_meaningsOf (f : Forest) : (meaningsOf f).length = operands f := by
  induction f with
  | nil => rfl
  | cons tree f ih =>
    rw [meaningsOf, operands, List.countP_cons]
    split
    · rw [List.length_cons, ih, operands]
    · rw [ih, operands, Nat.add_zero]

theorem eq_map_some_of_mapM {meanings : List (Option Regex)} {exprs : List Regex}
    (h : (meanings.mapM fun operand => operand) = some exprs) : meanings = exprs.map some := by
  induction meanings generalizing exprs with
  | nil =>
    cases h
    rfl
  | cons meaning meanings ih =>
    rw [List.mapM_cons] at h
    cases meaning with
    | none => cases h
    | some first =>
      have h : ((meanings.mapM fun operand => operand).bind fun rest => some (first :: rest)) =
          some exprs := h
      obtain ⟨rest, hrest, h⟩ := Option.bind_eq_some_iff.1 h
      obtain rfl : first :: rest = exprs := Option.some.inj h
      rw [ih hrest, List.map_cons]

theorem allMean_of_operands? (h : (operands? (meaningsOf f)).isSome = true) :
    AllMean f ∧ 2 ≤ operands f := by
  obtain ⟨exprs, h⟩ := Option.isSome_iff_exists.1 h
  obtain ⟨exprs', hall, h⟩ := Option.bind_eq_some_iff.1 h
  have hmeanings := eq_map_some_of_mapM hall
  rw [AllMean, ← length_meaningsOf, hmeanings, List.length_map, List.forall_mem_map]
  split at h
  · cases h
  · exact ⟨fun _ _ => rfl, by omega⟩

theorem allMean_of_single? (h : (single? (meaningsOf f)).join.isSome = true) :
    AllMean f ∧ operands f = 1 := by
  rw [AllMean, ← length_meaningsOf]
  match hmeanings : meaningsOf f with
  | [] =>
    rw [hmeanings] at h
    cases h
  | [meaning] =>
    rw [hmeanings] at h
    exact ⟨List.forall_mem_singleton.2 h, rfl⟩
  | _ :: _ :: _ =>
    rw [hmeanings] at h
    cases h

/-- What a node needs to mean something. Of its operands only the first one is quantified, so that
more of them are to be excluded otherwise. -/
theorem of_isSome_ofNode? (hquantified : kind = .quantified → operands f ≤ 1)
    (hplain : kind = .ident ∨ kind = .subExprRef ∨ kind = .anchor → operands f = 0)
    (h : (ofNode? kind f (meaningsOf f)).isSome = true) :
    AllMean f ∧ isComplete kind f = true := by
  have hnone (h : operands f = 0) : AllMean f := by
    rw [← length_meaningsOf, List.length_eq_zero_iff] at h
    rw [AllMean, h]
    exact fun _ hmem => nomatch hmem
  cases kind with
  | alt | concat =>
    rw [ofNode?, Option.isSome_map] at h
    obtain ⟨hall, htwo⟩ := allMean_of_operands? h
    exact ⟨hall, decide_eq_true htwo⟩
  | group =>
    obtain ⟨hall, hone⟩ := allMean_of_single? h
    exact ⟨hall, decide_eq_true hone⟩
  | quantified =>
    have hle := hquantified rfl
    obtain ⟨expr, h⟩ := Option.isSome_iff_exists.1 h
    obtain ⟨first, hfirst, h⟩ := Option.bind_eq_some_iff.1 h
    obtain ⟨operand, rfl, -⟩ := Option.bind_eq_some_iff.1 h
    obtain ⟨rest, hmeanings⟩ := List.head?_eq_some_iff.1 hfirst
    have hlength := length_meaningsOf f
    rw [hmeanings, List.length_cons] at hlength
    obtain rfl : rest = [] := List.length_eq_zero_iff.1 (by omega)
    have hone : operands f = 1 := by omega
    rw [AllMean, hmeanings, List.forall_mem_singleton]
    exact ⟨rfl, decide_eq_true hone⟩
  | ident | subExprRef =>
    rw [ofNode?, nameIn?, Option.isSome_map, Option.isSome_map] at h
    exact ⟨hnone (hplain (by decide)), any_of_firstToken? h⟩
  | anchor =>
    rw [ofNode?, Option.isSome_map] at h
    exact ⟨hnone (hplain (by decide)), any_of_firstToken? h⟩
  | _ => cases h

end Regex

open CallChain.Tree CallChain.Regex

namespace ParseState

variable {input : Parser.Input} {s s' : ParseState} {kind : DiagnosticKind} {related : List Related}

/-- How often a kind of problem has been reported. -/
def count (s : ParseState) (kind : DiagnosticKind) : Nat := s.reports.countP (·.kind = kind)

/-- Nothing has been reported about the next word. -/
def Fresh (input : Parser.Input) (s : ParseState) : Prop := s.lastReport ≠ some (s.place input)

theorem Idle.reports_eq (h : s.Idle s') : s'.reports = s.reports := by
  rw [h]

theorem Idle.fresh (h : s.Idle s') (hfresh : s.Fresh input) : s'.Fresh input := by
  rw [h]
  exact hfresh

theorem count_reported_of_ne {other : DiagnosticKind} (h : kind ≠ other) :
    (s.reported input kind related).count other = s.count other := by
  unfold reported
  split
  · rfl
  · have hkind : (s.diagnosis input kind related).kind = kind := rfl
    rw [count, List.countP_append, List.countP_singleton, hkind, decide_eq_false h]
    rfl

theorem Fresh.count_reported (h : s.Fresh input) :
    (s.reported input kind related).count kind = s.count kind + 1 := by
  unfold reported
  have hkind : (s.diagnosis input kind related).kind = kind := rfl
  rw [if_neg h, count, List.countP_append, List.countP_singleton, hkind, decide_eq_true rfl]
  rfl

end ParseState

namespace Parser

open ParseState

variable {input : Input} {s s' s'' : ParseState} {f g operand : Forest} {room due due' : Nat}

/-! ### What is reported about trees -/

/-- What a run tells of `due` operands, of which it answers some: the missing ones have been
reported, apart from those that are gaps in the trees below, and the other problems have not
occurred. -/
structure Filled (due : Nat) (s : ParseState) (f : Forest) (s' : ParseState) : Prop where
  whole : areWhole f = true
  operands_le : operands f ≤ due
  missing : s'.count .expectedExpression + operands f =
    s.count .expectedExpression + gapsOf f + due
  names : s'.count .expectedSubExpressionName = s.count .expectedSubExpressionName
  words : s'.count .unexpectedToken = s.count .unexpectedToken

theorem Filled.append (h : Filled due s f s') (h' : Filled due' s' g s'') :
    Filled (due + due') s (f ++ g) s'' where
  whole := by rw [areWhole_append, h.whole, h'.whole, Bool.and_self]
  operands_le := by
    rw [operands_append]
    exact Nat.add_le_add h.operands_le h'.operands_le
  missing := by
    have := h.missing
    have := h'.missing
    rw [operands_append, gapsOf_append]
    omega
  names := h'.names.trans h.names
  words := h'.words.trans h.words

/-- Tokens are taken, and nothing is reported. -/
theorem filled_leaves (ts : List Token) (h : s'.reports = s.reports) :
    Filled 0 s (ts.map .leaf) s' := by
  refine ⟨areWhole_leaves, by simp, ?_, ?_, ?_⟩
  · rw [operands_leaves, gapsOf_leaves, count, count, h]
  · rw [count, count, h]
  · rw [count, count, h]

theorem filled_nil (h : s'.reports = s.reports) : Filled 0 s [] s' := filled_leaves [] h

/-- Tokens before some trees. -/
theorem Filled.front (h : Filled 0 s f s') (h' : Filled due s' g s'') :
    Filled due s (f ++ g) s'' := by
  have hboth := h.append h'
  rwa [Nat.zero_add] at hboth

/-- A run before others that takes nothing and reports nothing. -/
theorem Filled.after (h : Filled due s' f s'') (hsame : s'.reports = s.reports) :
    Filled due s f s'' := by
  have hboth := (filled_nil hsame).front h
  rwa [List.nil_append] at hboth

theorem Filled.before (h : Filled due s f s') (hsame : s''.reports = s'.reports) :
    Filled due s f s'' := by
  have hboth := h.append (filled_nil hsame)
  rwa [List.append_nil] at hboth

/-- A missing closing bracket is not counted. -/
theorem filled_report {kind : DiagnosticKind} {related : List Related} {u : Unit}
    (hkind : kind = .unclosedGroup ∨ kind = .unclosedSubExpressionRef)
    (h : Reads (report input kind related) s u s') : Filled 0 s [] s' := by
  unfold Reads at h
  rw [report_eq] at h
  cases h
  have hother : kind ≠ .expectedExpression ∧ kind ≠ .expectedSubExpressionName ∧
      kind ≠ .unexpectedToken := by
    rcases hkind with rfl | rfl <;> decide
  refine ⟨rfl, Nat.le_refl _, ?_, ?_, ?_⟩
  · rw [count_reported_of_ne hother.1]
    rfl
  · rw [count_reported_of_ne hother.2.1]
  · rw [count_reported_of_ne hother.2.2]

/-- A missing operand is reported. -/
theorem filled_missing {u : Unit} (hfresh : s.Fresh input)
    (h : Reads (report input .expectedExpression []) s u s') : Filled 1 s [] s' := by
  unfold Reads at h
  rw [report_eq] at h
  cases h
  refine ⟨rfl, Nat.zero_le _, ?_, ?_, ?_⟩
  · rw [hfresh.count_reported]
    rfl
  · rw [count_reported_of_ne (by decide)]
  · rw [count_reported_of_ne (by decide)]

/-- A node is one operand. What is due below it is there, or it is a gap. -/
theorem Filled.node {kind : SyntaxKind} (h : Filled due s f s')
    (hcomplete : isComplete kind f = true) (hdue : vacancies kind f + operands f = due) :
    Filled 1 s [.node kind f] s' where
  whole := by rw [areWhole_node, hcomplete, h.whole, Bool.and_self]
  operands_le := Nat.le_refl 1
  missing := by
    have := h.missing
    rw [operands_node, gapsOf_node]
    omega
  names := h.names
  words := h.words

/-- A node that means something is complete, and what is below it means something, too. -/
theorem Filled.of_node {kind : SyntaxKind} (hmean : AllMean [.node kind f])
    (hquantified : kind = .quantified → operands f ≤ 1)
    (hplain : kind = .ident ∨ kind = .subExprRef ∨ kind = .anchor → operands f = 0)
    (h : AllMean f → isComplete kind f = true →
      ∃ due, Filled due s f s' ∧ vacancies kind f + operands f = due) :
    Filled 1 s [.node kind f] s' := by
  obtain ⟨hall, hcomplete⟩ :=
    of_isSome_ofNode? hquantified hplain (hmean _ (List.mem_singleton_self _))
  obtain ⟨due, hfilled, hdue⟩ := h hall hcomplete
  exact hfilled.node hcomplete hdue

/-! ### Atoms -/

theorem filled_bump (h : Reads bump s f s') : Filled 0 s f s' := by
  obtain ⟨token, -, rfl⟩ := exists_bump_eq h
  obtain ⟨other, htakes, -⟩ := reads_bump h
  exact filled_leaves _ htakes.reports_eq

theorem filled_flush (h : Reads flush s f s') : Filled 0 s f s' := by
  obtain ⟨rfl, htakes⟩ := reads_flush h
  exact filled_leaves _ htakes.reports_eq

theorem filled_eat? {kind : SyntaxKind} {o : Option Forest} (h : Reads (eat? kind) s o s') :
    Filled 0 s (o.getD []) s' := by
  cases eatSteps h with
  | eaten hnext hbump => exact (filled_bump hbump).after (idle_nextIs hnext).reports_eq
  | left hnext => exact filled_nil (idle_nextIs hnext).reports_eq

/-- The end of a node with brackets: a closing bracket, or a report that there is none. -/
theorem filled_closing {kind : SyntaxKind} {problem : DiagnosticKind} {related : List Related}
    {o : Option Forest} {s₁ : ParseState}
    (hproblem : problem = .unclosedGroup ∨ problem = .unclosedSubExpressionRef)
    (heat : Reads (eat? kind) s o s₁)
    (hreport : MayReport input (o.isNone = true) problem related s₁ s') :
    Filled 0 s (o.getD []) s' := by
  have hclosing := filled_eat? heat
  by_cases hnone : o.isNone = true
  · obtain ⟨u, hreport⟩ := hreport.made hnone
    have hboth := hclosing.append (filled_report hproblem hreport)
    rwa [List.append_nil] at hboth
  · rwa [hreport.skipped hnone]

theorem filled_leaf {kind : SyntaxKind} (hkind : kind = .ident ∨ kind = .anchor)
    (h : Reads (leaf kind) s f s') (hmean : AllMean f) : Filled 1 s f s' := by
  obtain ⟨taken, hbump, rfl⟩ := exists_bump_of_leaf h
  have htaken := filled_bump hbump
  have hnone : operands taken = 0 := Nat.le_zero.1 htaken.operands_le
  refine .of_node hmean (fun _ => by omega) (fun _ => hnone) fun _ _ => ⟨0, htaken, ?_⟩
  rw [hnone]
  rcases hkind with rfl | rfl <;> rfl

/-- No name is among the tokens that are taken with a word of another kind. -/
theorem any_bare_eq_false {token : Token} (h : Taken f token) (hkind : token.kind ≠ .id) :
    ((bare f).any (·.kind = .id)) = false := by
  rw [List.any_eq_false]
  intro other hother hid
  rcases kind_of_mem_bare h hother with hblank | hsame
  · rw [of_decide_eq_true hid] at hblank
    cases hblank
  · exact hkind (hsame.symm.trans (of_decide_eq_true hid))

/-- A reference that means something has a name, so that none has been missed. -/
theorem filled_reference (h : Reads (reference input) s f s') (hordered : s.Ordered input)
    (hnext : s.next = some .angleOpen) (hmean : AllMean f) : Filled 1 s f s' := by
  cases referenceSteps h with
  | @steps _ bracket name closing _ _ _ _ _ _ hspan hbump hname hmissing hclose hunclosed =>
    obtain ⟨token, hkind, -, htaken, htold⟩ := told_opening hordered hnext hspan hbump
    have hbracket := (filled_bump hbump).after (reads_nextSpan hspan).reports_eq
    have hnameTaken := filled_eat? hname
    have hend := filled_closing (.inr rfl) hclose hunclosed
    have hnone : operands (bracket ++ name.getD [] ++ closing.getD []) = 0 := by
      have := hbracket.operands_le
      have := hnameTaken.operands_le
      have := hend.operands_le
      rw [operands_append, operands_append]
      omega
    refine .of_node hmean (fun _ => by omega) (fun _ => hnone) fun _ hcomplete => ?_
    have hfound : ¬ name.isNone = true := by
      intro hmissed
      have hsane := ((told_eat? htold.ordered hname).mayReport hmissing).ordered.toSane
      rw [Option.isNone_iff_eq_none] at hmissed
      have hbrackets : ((bare (bracket ++ closing.getD [])).any (·.kind = .id)) = false := by
        rw [bare_append, List.any_append, any_bare_eq_false htaken (by rw [hkind]; decide)]
        rcases reads_eat? hclose with ⟨g, other, rfl, hother, -, hg⟩ | ⟨rfl, -⟩
        · exact any_bare_eq_false (hg hsane) (by rw [hother]; decide)
        · rfl
      rw [hmissed, Option.getD_none, List.append_nil] at hcomplete
      exact Bool.false_ne_true (hbrackets.symm.trans hcomplete)
    rw [hmissing.skipped hfound] at hend
    refine ⟨0, (hbracket.append hnameTaken).append hend, ?_⟩
    rw [hnone]
    rfl

/-- What starts with an atom, or where nothing has been reported yet. -/
def Starts (input : Input) (s : ParseState) : Prop :=
  s.Fresh input ∨ s.next.any KindSet.atomFirst.contains = true

section Inside

variable (hinside : ∀ reader ∈ insideOf input room, ∀ {s f s'}, Reads reader s f s' →
  s.Ordered input → Starts input s → AllMean f → Filled 1 s f s')

include hinside

theorem filled_inside {reader : Parser Forest} (hreader : reader ∈ insideOf input room)
    (h : GroupInside input reader s f s') (hordered : s.Ordered input) (hfresh : s.Fresh input)
    (hmean : AllMean f) (hone : operands f = 1) : Filled 1 s f s' := by
  cases h with
  | empty | ended => cases hone
  | read hclosed hended hbody =>
    have hidle := (idle_nextIs hclosed).trans (idle_atEnd hended)
    have hordered₁ := (told_idle hordered hidle).ordered
    exact (hinside reader hreader hbody hordered₁ (.inl (hidle.fresh hfresh)) hmean).after
      hidle.reports_eq

/-- A group that means something has an inside. -/
theorem filled_group (h : Reads (group input (insideOf input room)) s f s')
    (hordered : s.Ordered input) (hmean : AllMean f) : Filled 1 s f s' := by
  obtain ⟨reader, hreader, hsteps⟩ := groupSteps h
  cases hsteps with
  | @steps _ bracket body closing _ _ _ _ _ _ _ _ _ hrefill hspan hbump hbody hclose hunclosed
      hrefill' =>
    have hstart := told_idle hordered (idle_refill hrefill)
    obtain ⟨-, rfl⟩ := reads_nextSpan_eq hspan
    have hbracket := (filled_bump hbump).after (idle_refill hrefill).reports_eq
    have hend := (filled_closing (.inl rfl) hclose hunclosed).before
      (idle_refill hrefill').reports_eq
    refine .of_node hmean nofun (by simp) fun hall hcomplete => ?_
    have hone : operands (bracket ++ body ++ closing.getD []) = 1 := of_decide_eq_true hcomplete
    rw [allMean_append, allMean_append] at hall
    have hinner : operands body = 1 := by
      have := hbracket.operands_le
      have := hend.operands_le
      rw [operands_append, operands_append] at hone
      omega
    have hfilled := filled_inside hinside hreader hbody (told_bump hstart.ordered hbump).ordered
      (fresh_of_bump hstart.ordered hbump) hall.1.2 hinner
    refine ⟨1, (hbracket.append hfilled).append hend, ?_⟩
    rw [hone]
    rfl

theorem filled_atomic (h : Reads (atomic input (insideOf input room)) s f s')
    (hordered : s.Ordered input) (hnext : s.next.any KindSet.atomFirst.contains = true)
    (hmean : AllMean f) : Filled 1 s f s' := by
  obtain ⟨s₁, hlook, hsteps⟩ := atomicSteps h
  have hidle := idle_look hlook
  have hordered₁ := (told_idle hordered hidle).ordered
  refine Filled.after ?_ hidle.reports_eq
  rw [← hidle.next_eq] at hnext hsteps
  generalize hkind : s₁.next = kind at hsteps
  cases hsteps with
  | group h => exact filled_group hinside h hordered₁ hmean
  | reference h => exact filled_reference h hordered₁ hkind hmean
  | ident h => exact filled_leaf (.inl rfl) h hmean
  | anchor _ h => exact filled_leaf (.inr rfl) h hmean
  | missing _ hnone =>
    rw [hkind, hnone] at hnext
    cases hnext

end Inside

/-! ### Sequences -/

/-- Where an atom is ahead, one node is read. -/
theorem operands_atomic {inside : Option (Parser Forest)} (h : Reads (atomic input inside) s f s')
    (hnext : s.next.any KindSet.atomFirst.contains = true) : operands f = 1 := by
  obtain ⟨s₁, -, hrun⟩ := atomicRun h
  generalize s.next = next at hrun hnext
  cases hrun with
  | group h =>
    obtain ⟨reader, -, hrun⟩ := groupRun h
    cases hrun
    rfl
  | reference h =>
    cases referenceRun h
    rfl
  | ident h | anchor _ h =>
    obtain ⟨token, taken, -, -, rfl⟩ := reads_leaf h
    rfl
  | missing hmissing =>
    rw [hmissing] at hnext
    cases hnext

theorem operands_quantified (h : QuantifiedRun operand s f s') (hone : operands operand = 1) :
    operands f = 1 := by
  induction h with
  | stop => exact hone
  | wrap _ _ _ _ _ ih => exact ih rfl

theorem operands_modified {inside : Option (Parser Forest)}
    (h : Reads (modified input room inside) s f s')
    (hnext : s.next.any KindSet.atomFirst.contains = true) : operands f = 1 := by
  cases modifiedRun h with
  | run htakes hoperand hwhole =>
    rw [← htakes.next_eq] at hnext
    rw [operands_append, operands_leaves, Nat.zero_add]
    exact operands_quantified (quantifiedRun hwhole) (operands_atomic hoperand hnext)

/-- Quantifiers mean something only around an operand that does. -/
theorem filled_quantified {s₀ : ParseState} (h : QuantifiedSteps operand s f s')
    (hone : operands operand = 1) (hoperand : AllMean operand → Filled 1 s₀ operand s)
    (hmean : AllMean f) : Filled 1 s₀ f s' := by
  induction h with
  | stop hnext => exact (hoperand hmean).before (idle_nextIn hnext).reports_eq
  | @wrap operand quantifier _ _ _ _ _ _ _ _ _ hnext hrefill hbump _ hrefill' ih =>
    have hidle := (idle_nextIn hnext).trans (idle_refill hrefill)
    have hquantifier := filled_bump hbump
    have hboth : operands (operand ++ quantifier) = 1 := by
      have := hquantifier.operands_le
      rw [operands_append]
      omega
    refine (ih rfl (fun hnode => ?_) hmean).before (idle_refill hrefill').reports_eq
    refine .of_node hnode (fun _ => Nat.le_of_eq hboth) (by simp) fun hall _ => ?_
    rw [allMean_append] at hall
    refine ⟨1, ((hoperand hall.1).before hidle.reports_eq).append hquantifier, ?_⟩
    rw [hboth]
    rfl

section Inside

variable (hinside : ∀ reader ∈ insideOf input room, ∀ {s f s'}, Reads reader s f s' →
  s.Ordered input → Starts input s → AllMean f → Filled 1 s f s')

include hinside

theorem filled_modified (h : Reads (modified input room (insideOf input room)) s f s')
    (hordered : s.Ordered input) (hnext : s.next.any KindSet.atomFirst.contains = true)
    (hmean : AllMean f) : Filled 1 s f s' := by
  cases modifiedSteps h with
  | steps hflush hoperand hwhole =>
    have hordered₁ := (told_flush hordered hflush).ordered
    rw [← (reads_flush hflush).2.next_eq] at hnext
    have hfilled := filled_quantified (quantifiedSteps hwhole) (operands_atomic hoperand hnext)
      (filled_atomic hinside hoperand hordered₁ hnext) (allMean_append.1 hmean).2
    exact (filled_flush hflush).front hfilled

omit hinside in
/-- The states between the operands of a sequence or a choice. -/
theorem tells_inside : ∀ reader ∈ insideOf input room, ∀ {s f s'}, Reads reader s f s' →
    s.Ordered input → Stands input s f s' := by
  intro reader hreader
  obtain ⟨room, rfl⟩ := exists_of_insideOf hreader
  exact walk_tells.regex room

omit hinside in
/-- An atom that has been seen is still ahead. -/
theorem next_of_nextIn {kinds : KindSet} (h : Reads (nextIn kinds) s true s') :
    s'.next.any kinds.contains = true := by
  obtain ⟨hmore, htakes⟩ := reads_nextIn h
  rw [htakes.next_eq]
  exact hmore.symm

theorem filled_factors (h : FactorsSteps input room (insideOf input room) s f s')
    (hordered : s.Ordered input) (hmean : AllMean f) : Filled (operands f) s f s' := by
  induction h with
  | stop hnext => exact filled_nil (idle_nextIn hnext).reports_eq
  | more hnext hoperand _ ih =>
    have hidle := idle_nextIn hnext
    have hmore := next_of_nextIn hnext
    have hordered₁ := (told_idle hordered hidle).ordered
    have hordered₂ := (walk_tells.modified tells_inside hoperand hordered₁).ordered
    rw [allMean_append] at hmean
    rw [operands_append, operands_modified hoperand hmore]
    have hfilled := filled_modified hinside hoperand hordered₁ hmore hmean.1
    exact (hfilled.append (ih hordered₂ hmean.2)).after hidle.reports_eq

/-- A missing operand is one where nothing has been reported yet. -/
theorem filled_concat (h : Reads (concat input room (insideOf input room)) s f s')
    (hordered : s.Ordered input) (hstarts : Starts input s) (hmean : AllMean f) :
    Filled 1 s f s' := by
  have hfront {before : Forest} {s₁ s₂ : ParseState}
      (hnext : Reads (nextIn .atomFirst) s true s₁) (hflush : Reads flush s₁ before s₂) :
      s₂.Ordered input ∧ s₂.next.any KindSet.atomFirst.contains = true ∧ Filled 0 s before s₂ := by
    have hidle := idle_nextIn hnext
    refine ⟨(told_flush (told_idle hordered hidle).ordered hflush).ordered, ?_,
      (filled_flush hflush).after hidle.reports_eq⟩
    rw [(reads_flush hflush).2.next_eq]
    exact next_of_nextIn hnext
  cases concatSteps h with
  | missing hnext hreport =>
    have hidle := idle_nextIn hnext
    have hnone := (reads_nextIn hnext).1
    have hfresh := hstarts.resolve_right (hnone ▸ Bool.false_ne_true)
    exact (filled_missing (hidle.fresh hfresh) hreport).after hidle.reports_eq
  | one hnext hflush hfirst hend =>
    obtain ⟨hordered₂, hmore, hbefore⟩ := hfront hnext hflush
    have hfilled := filled_modified hinside hfirst hordered₂ hmore (allMean_append.1 hmean).2
    exact hbefore.front (hfilled.before (idle_nextIn hend).reports_eq)
  | more hnext hflush hfirst hnext' hrest =>
    obtain ⟨hordered₂, hmore, hbefore⟩ := hfront hnext hflush
    have hidle := idle_nextIn hnext'
    have hordered₃ := (walk_tells.modified tells_inside hfirst hordered₂).ordered
    refine hbefore.front (.of_node (allMean_append.1 hmean).2 nofun (by simp) fun hall _ => ?_)
    rw [allMean_append] at hall
    have hfilled := (filled_modified hinside hfirst hordered₂ hmore hall.1).before hidle.reports_eq
    refine ⟨_, hfilled.append
      (filled_factors hinside hrest (told_idle hordered₃ hidle).ordered hall.2), ?_⟩
    rw [operands_append, operands_modified hfirst hmore]
    exact Nat.zero_add _

/-! ### Choices -/

omit hinside in
/-- Nothing has been reported yet where a word has been taken. -/
theorem fresh_of_eat? {kind : SyntaxKind} (hordered : s.Ordered input)
    (h : Reads (eat? kind) s (some f) s') : s'.Fresh input := by
  cases eatSteps h with
  | eaten hnext hbump => exact fresh_of_bump (told_idle hordered (idle_nextIs hnext)).ordered hbump

omit hinside in
theorem bars_of_taken {token : Token} (h : Taken f token) (hkind : token.kind = .pipe) :
    bars f = 1 := by
  obtain ⟨blanks, hblanks, rfl⟩ := h
  rw [bars, bare_leaves, List.countP_append, List.countP_singleton, hkind]
  have hnone : blanks.countP (·.kind = .pipe) = 0 := by
    refine List.countP_eq_zero.2 fun blank hblank hpipe => ?_
    have htrivia := hblanks blank hblank
    rw [of_decide_eq_true hpipe] at htrivia
    cases htrivia
  rw [hnone]
  rfl

omit hinside in
/-- No bar stands beside the operands of a choice but those between them. -/
theorem bars_of_stands (h : Stands input s f s') : bars f = 0 := by
  refine List.countP_eq_zero.2 fun token htoken hpipe => ?_
  have htrivia := h.blank token htoken
  rw [of_decide_eq_true hpipe] at htrivia
  cases htrivia

/-- One operand is due behind each bar. -/
theorem filled_branches (h : BranchesSteps input room (insideOf input room) s f s')
    (hordered : s.Ordered input) (hmean : AllMean f) : Filled (bars f) s f s' := by
  induction h with
  | stop hbar => exact filled_eat? hbar
  | @more bar _ _ _ _ _ _ hbar hoperand _ ih =>
    rw [allMean_append, allMean_append] at hmean
    have hordered₁ := (told_eat? hordered hbar).ordered
    have hstands := walk_tells.concat tells_inside hoperand hordered₁
    have hfresh := fresh_of_eat? hordered hbar
    have hbars : bars bar = 1 := by
      rcases reads_eat? hbar with ⟨g, token, heq, hkind, -, htaken⟩ | ⟨heq, -⟩
      · cases heq
        exact bars_of_taken (htaken hordered.toSane) hkind
      · cases heq
    rw [bars_append, bars_append, hbars, bars_of_stands hstands]
    have hoperand := filled_concat hinside hoperand hordered₁ (.inl hfresh) hmean.1.2
    exact ((filled_eat? hbar).front hoperand).append (ih hstands.ordered hmean.2)

theorem filled_union (h : Reads (union input room (insideOf input room)) s f s')
    (hordered : s.Ordered input) (hstarts : Starts input s) (hmean : AllMean f) :
    Filled 1 s f s' := by
  have hstarts₁ {before : Forest} {s₁ : ParseState} (hflush : Reads flush s before s₁) :
      Starts input s₁ := by
    cases hflush
    exact hstarts
  cases unionSteps h with
  | one hflush hfirst hend =>
    have hordered₁ := (told_flush hordered hflush).ordered
    have hfilled := filled_concat hinside hfirst hordered₁ (hstarts₁ hflush)
      (allMean_append.1 hmean).2
    exact (filled_flush hflush).front (hfilled.before (idle_nextIs hend).reports_eq)
  | more hflush hfirst hmore hrest =>
    have hidle := idle_nextIs hmore
    have hordered₁ := (told_flush hordered hflush).ordered
    have hstands := walk_tells.concat tells_inside hfirst hordered₁
    refine (filled_flush hflush).front ?_
    refine .of_node (allMean_append.1 hmean).2 nofun (by simp) fun hall _ => ?_
    rw [allMean_append] at hall
    have hfilled := (filled_concat hinside hfirst hordered₁ (hstarts₁ hflush) hall.1).before
      hidle.reports_eq
    have hboth := hfilled.append
      (filled_branches hinside hrest (told_idle hstands.ordered hidle).ordered hall.2)
    refine ⟨_, hboth, ?_⟩
    -- no more operands are there than are due
    have hle := hboth.operands_le
    rw [vacancies, if_pos rfl, bars_append, bars_of_stands hstands]
    omega

end Inside

theorem filled_regex (room : Nat) (h : Reads (regex input room) s f s')
    (hordered : s.Ordered input) (hstarts : Starts input s) (hmean : AllMean f) :
    Filled 1 s f s' := by
  induction room generalizing s f s' with
  | zero => exact filled_union (fun reader hreader => by cases hreader) h hordered hstarts hmean
  | succ room ih =>
    refine filled_union (fun reader hreader => ?_) h hordered hstarts hmean
    obtain rfl : regex input room = reader := Option.some.inj hreader
    exact ih

/-! ### Whole texts -/

/-- A word that is set aside has no meaning. -/
theorem not_allMean_setAside (h : Reads (setAside input) s f s') (hwords : s.words ≠ []) :
    ¬ AllMean f := by
  intro hmean
  cases setAsideSteps h with
  | ended hreport hended =>
    have hmoves : s.words = _ := (reads_report hreport).1.words_eq
    rw [hmoves] at hwords
    exact hwords (List.isEmpty_iff.1 (reads_atEnd hended).1.symm)
  | word => cases (allMean_append.1 hmean).2 _ (List.mem_singleton_self _)

/-- So nothing stands behind a regex that means something. -/
theorem filled_leftovers (h : LeftoversSteps input room s f s') (hmean : AllMean f) :
    Filled 0 s f s' := by
  cases h with
  | stop hended => exact filled_nil (idle_atEnd hended).reports_eq
  | round hended hmisplaced =>
    obtain ⟨hsome, htakes⟩ := reads_atEnd hended
    have hwords : s.words = _ := htakes.words_eq
    have hall := (allMean_append.1 (allMean_append.1 hmean).1).1
    refine absurd hall (not_allMean_setAside hmisplaced fun hnone => ?_)
    rw [hwords, hnone] at hsome
    cases hsome

/-- What is reported about a text whose tree means something. -/
theorem filled_root {limit : Nat} {tree : Tree}
    (h : Reads (root input limit) s tree s') (hordered : s.Ordered input)
    (hfresh : s.Fresh input) (hmean : (ofRoot? tree).isSome = true) :
    Filled 1 s [tree] s' := by
  cases rootSteps h with
  | empty _ _ hflush =>
    -- blanks alone mean nothing
    have hone := (allMean_of_single? hmean).2
    have hle := (filled_flush hflush).operands_le
    omega
  | read hended hfirst hrest hflush =>
    obtain ⟨hall, hone⟩ := allMean_of_single? hmean
    rw [allMean_append, allMean_append] at hall
    have hidle := idle_atEnd hended
    have hfilled := filled_regex limit hfirst (told_idle hordered hidle).ordered
      (.inl (hidle.fresh hfresh)) hall.1.1
    have hbody := (hfilled.after hidle.reports_eq).append (filled_leftovers hrest hall.1.2)
    refine (hbody.append (filled_flush hflush)).node (decide_eq_true hone) ?_
    rw [hone]
    rfl

end Parser

variable {text : String} {source : SourceId} {limit : Nat} {p : Parsed}

/-- What the reader has reported about a text whose tree means something. Every node of the tree has
what it needs, and there are no error nodes; neither is the name of a reference missing nor is a
token misplaced; and operands have been missed only between the bars of choices that keep two of
them, each with one report. -/
theorem parse_gaps (h : parse text source limit = .ok p)
    (hmean : (Regex.ofRoot? p.root).isSome = true) :
    p.root.isWhole = true ∧
      (∀ d ∈ p.diagnostics, d.kind ≠ .expectedSubExpressionName ∧ d.kind ≠ .unexpectedToken) ∧
      p.diagnostics.countP (·.kind = .expectedExpression) = p.root.gaps := by
  unfold parse at h
  split at h
  next tree s hread =>
    cases h
    obtain ⟨hordered, -⟩ := Parser.ordered_ofTokens text source
    have hfilled := Parser.filled_root hread hordered nofun hmean
    have hone : operands [tree] = 1 := by
      cases tree with
      | leaf token => cases hmean
      | node kind children => rfl
    have hwhole := hfilled.whole
    have hmissing := hfilled.missing
    -- at first nothing has been reported
    have hnone {kind : DiagnosticKind}
        (hcount : s.count kind = (ParseState.ofTokens (tokens text)).count kind) :
        ∀ d ∈ s.reports, d.kind ≠ kind := by
      intro d hd heq
      exact List.countP_eq_zero.1 hcount d hd (decide_eq_true heq)
    have hzero : (ParseState.ofTokens (tokens text)).count .expectedExpression = 0 := rfl
    rw [areWhole, areWhole, Bool.and_true] at hwhole
    rw [hone, hzero, gapsOf, gapsOf] at hmissing
    refine ⟨hwhole, fun d hd => ⟨hnone hfilled.names d hd, hnone hfilled.words d hd⟩, ?_⟩
    show s.count .expectedExpression = tree.gaps
    omega
  next => cases h

theorem parse_gaps_twoBars : ∃ p, parse "(a | | b)+ <c>" ⟨0⟩ 128 = .ok p ∧
    (Regex.ofRoot? p.root).isSome = true ∧ p.root.isWhole = true ∧
    p.diagnostics.countP (·.kind = .expectedExpression) = 1 := by
  have hmeans : (parse "(a | | b)+ <c>" ⟨0⟩ 128).toOption.map
      (fun p => ((Regex.ofRoot? p.root).isSome, p.root.gaps)) = some (true, 1) := by
    decide +kernel
  obtain ⟨p, hparse, heq⟩ := exists_of_toOption_map hmeans
  obtain ⟨hmean, hgaps⟩ := Prod.mk.inj heq
  obtain ⟨hwhole, -, hcount⟩ := parse_gaps hparse hmean
  exact ⟨p, hparse, hmean, hwhole, hcount.trans hgaps⟩

/-- A tree may mean something although an operand has been missed. -/
theorem exists_meaning_with_gap : ∃ p, parse "a | | b" ⟨0⟩ 128 = .ok p ∧
    (Regex.ofRoot? p.root).isSome = true ∧
    ∃ d ∈ p.diagnostics, d.kind = .expectedExpression := by
  have hmeans : (parse "a | | b" ⟨0⟩ 128).toOption.map
      (fun p => ((Regex.ofRoot? p.root).isSome, p.diagnostics.any (·.kind = .expectedExpression))) =
        some (true, true) := by
    decide +kernel
  obtain ⟨p, hparse, heq⟩ := exists_of_toOption_map hmeans
  obtain ⟨hmean, hany⟩ := Prod.mk.inj heq
  obtain ⟨d, hd, hkind⟩ := List.any_eq_true.1 hany
  exact ⟨p, hparse, hmean, d, hd, of_decide_eq_true hkind⟩

end CallChain
