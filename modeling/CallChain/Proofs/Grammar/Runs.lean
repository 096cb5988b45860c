import CallChain.Proofs.Grammar.Tokens

/-!
# Runs of the reader

What the primitive steps of the reader do to the words that lie ahead and to the reports. No step
gives back a word or a report (`Moves`), and a report is made or was made before (`reads_report`).
-/

namespace CallChain

/-! ### Reading states -/

namespace ParseState

/-- The tokens that lie ahead. -/
def words (s : ParseState) : List Token := s.ahead.map (·.token)

/-- The kind of the next token. -/
def next (s : ParseState) : Option SyntaxKind := s.words.head?.map (·.kind)

/-- What all states of a run satisfy: only blanks are set aside as blanks, and a place is remembered
only for a report. -/
structure Sane (s : ParseState) : Prop where
  pending : ∀ b ∈ s.pending, b.kind.isTrivia = true
  ahead : ∀ word ∈ s.ahead, ∀ b ∈ word.blanks, b.kind.isTrivia = true
  quiet : s.reports = [] → s.lastReport = none

/-- From one state to another by taking some tokens. -/
structure Moves (s : ParseState) (ts : List Token) (s' : ParseState) : Prop where
  words_eq : s.words = ts ++ s'.words
  reports : s.reports <+: s'.reports
  sane : s.Sane → s'.Sane

/-- From one state to another by taking some tokens and reporting nothing. -/
structure Takes (s : ParseState) (ts : List Token) (s' : ParseState) : Prop
    extends Moves s ts s' where
  reports_eq : s'.reports = s.reports

/-- A state of a run that has reported nothing, with some tokens ahead. -/
structure Ready (s : ParseState) (ts : List Token) : Prop where
  sane : s.Sane
  reports_eq : s.reports = []
  words_eq : s.words = ts

variable {s s' s'' : ParseState} {ts ts' : List Token}

/-- Where a kind is next, some word is ahead. -/
theorem words_ne_nil_of_next {kind : SyntaxKind} (h : s.next = some kind) : s.words ≠ [] := by
  intro hnil
  rw [next, hnil] at h
  cases h

theorem exists_next_of_any {kinds : KindSet} (h : s.next.any kinds.contains = true) :
    ∃ kind, s.next = some kind ∧ kinds.contains kind = true := by
  cases hnext : s.next with
  | none =>
    rw [hnext] at h
    cases h
  | some kind =>
    rw [hnext] at h
    exact ⟨kind, rfl, h⟩

theorem words_ne_nil_of_any {kinds : KindSet} (h : s.next.any kinds.contains = true) :
    s.words ≠ [] := by
  obtain ⟨kind, hnext, -⟩ := exists_next_of_any h
  exact words_ne_nil_of_next hnext

theorem Moves.refl : s.Moves [] s := ⟨rfl, List.prefix_rfl, fun h => h⟩

theorem Moves.trans (h : s.Moves ts s') (h' : s'.Moves ts' s'') : s.Moves (ts ++ ts') s'' where
  words_eq := by rw [h.words_eq, h'.words_eq, List.append_assoc]
  reports := h.reports.trans h'.reports
  sane := fun hsane => h'.sane (h.sane hsane)

/-- A step that takes nothing, before others. -/
theorem Moves.after (h : s.Moves [] s') (h' : s'.Moves ts s'') : s.Moves ts s'' := h.trans h'

theorem Moves.clean (h : s.Moves ts s') (hclean : s'.reports = []) : s.reports = [] :=
  List.prefix_nil.1 (hclean ▸ h.reports)

theorem Moves.next_eq (h : s.Moves [] s') : s'.next = s.next := by
  rw [next, next, h.words_eq, List.nil_append]

theorem Takes.refl : s.Takes [] s := ⟨.refl, rfl⟩

theorem Takes.trans (h : s.Takes ts s') (h' : s'.Takes ts' s'') : s.Takes (ts ++ ts') s'' :=
  ⟨h.toMoves.trans h'.toMoves, h'.reports_eq.trans h.reports_eq⟩

theorem Takes.after (h : s.Takes [] s') (h' : s'.Takes ts s'') : s.Takes ts s'' := h.trans h'

theorem Moves.next_eq_some {token : Token} (h : s.Moves (token :: ts) s') :
    s.next = some token.kind := by
  rw [next, h.words_eq]
  rfl

theorem Ready.takes (h : s.Ready (ts ++ ts')) (htakes : s.Takes ts s') : s'.Ready ts' where
  sane := htakes.sane h.sane
  reports_eq := htakes.reports_eq.trans h.reports_eq
  words_eq := List.append_cancel_left (htakes.words_eq.symm.trans h.words_eq)

/-- A step that takes nothing leaves everything ahead. -/
theorem Ready.pass (h : s.Ready ts) (htakes : s.Takes [] s') : s'.Ready ts := by
  have h : s.Ready ([] ++ ts) := h
  exact h.takes htakes

theorem Ready.next_eq {token : Token} (h : s.Ready (token :: ts)) :
    s.next = some token.kind := by
  rw [next, h.words_eq]
  rfl

end ParseState

open ParseState

/-! ### Forests -/

/-- The blanks before a token and the token itself. -/
def Taken (f : Forest) (token : Token) : Prop :=
  ∃ blanks : List Token, (∀ b ∈ blanks, b.kind.isTrivia = true) ∧
    f = (blanks ++ [token]).map .leaf

namespace Parser

/-! ### Composing runs -/

/-- A run of `m` from one state to another, and what it answers. -/
def Reads {α : Type} (m : Parser α) (s : ParseState) (a : α) (s' : ParseState) : Prop :=
  m s = .ok (a, s')

variable {α β : Type} {s s' s'' : ParseState} {a b : α} {f : Forest} {input : Input}

theorem bind_of_reads {m : Parser α} {g : α → Parser β} (h : Reads m s a s') :
    (m >>= g) s = g a s' := by
  show (m s >>= fun p => g p.1 p.2) = _
  rw [h]
  rfl

theorem bind_of_error {m : Parser α} {g : α → Parser β} {halt : Halt} (h : m s = .error halt) :
    (m >>= g) s = .error halt := by
  show (m s >>= fun p => g p.1 p.2) = _
  rw [h]
  rfl

theorem reads_bind {m : Parser α} {g : α → Parser β} {b : β} :
    Reads (m >>= g) s b s'' ↔ ∃ a s', Reads m s a s' ∧ Reads (g a) s' b s'' := by
  constructor
  · intro hrun
    cases h : m s with
    | error halt =>
      rw [Reads, bind_of_error h] at hrun
      cases hrun
    | ok p =>
      rw [Reads, bind_of_reads h] at hrun
      exact ⟨p.1, p.2, h, hrun⟩
  · rintro ⟨a, s', h, hrest⟩
    exact (bind_of_reads h).trans hrest

theorem reads_pure : Reads (pure a) s b s' ↔ a = b ∧ s = s' := by
  show Except.ok (a, s) = .ok (b, s') ↔ _
  rw [Except.ok.injEq, Prod.mk.injEq]

theorem reads_get {t : ParseState} : Reads (get : Parser ParseState) s t s' ↔ s = t ∧ s = s' := by
  show Except.ok (s, s) = .ok (t, s') ↔ _
  rw [Except.ok.injEq, Prod.mk.injEq]

theorem reads_modify {g : ParseState → ParseState} {u : Unit} :
    Reads (modify g) s u s' ↔ s' = g s := by
  show Except.ok (PUnit.unit, g s) = .ok (u, s') ↔ _
  rw [Except.ok.injEq, Prod.mk.injEq, eq_comm (a := g s)]
  exact and_iff_right rfl

theorem not_reads_throw {halt : Halt} : ¬ Reads (throw halt : Parser α) s a s' := by
  intro h
  cases h

/-! ### Looking -/

theorem reads_look {k : Option SyntaxKind} (h : Reads look s k s') :
    k = s.next ∧ s.Takes [] s' := by
  unfold Reads look at h
  split at h
  next hahead =>
    cases h
    refine ⟨?_, .refl⟩
    rw [next, words, hahead]
    rfl
  next word ahead hahead =>
    split at h
    · cases h
    · cases h
      refine ⟨?_, ⟨⟨rfl, List.prefix_rfl, fun hsane => ?_⟩, rfl⟩⟩
      · rw [next, words, hahead]
        rfl
      · exact ⟨hsane.pending, hsane.ahead, hsane.quiet⟩

theorem reads_nextIs {kind : SyntaxKind} {b : Bool} (h : Reads (nextIs kind) s b s') :
    b = decide (s.next = some kind) ∧ s.Takes [] s' := by
  obtain ⟨k, s₁, hlook, h⟩ := reads_bind.1 h
  obtain ⟨rfl, htakes⟩ := reads_look hlook
  obtain ⟨rfl, rfl⟩ := reads_pure.1 h
  exact ⟨rfl, htakes⟩

theorem reads_nextIn {kinds : KindSet} {b : Bool} (h : Reads (nextIn kinds) s b s') :
    b = s.next.any kinds.contains ∧ s.Takes [] s' := by
  obtain ⟨k, s₁, hlook, h⟩ := reads_bind.1 h
  obtain ⟨rfl, htakes⟩ := reads_look hlook
  obtain ⟨rfl, rfl⟩ := reads_pure.1 h
  exact ⟨rfl, htakes⟩

theorem reads_atEnd {b : Bool} (h : Reads atEnd s b s') : b = s.words.isEmpty ∧ s.Takes [] s' := by
  obtain ⟨t, s₁, hget, h⟩ := reads_bind.1 h
  obtain ⟨rfl, rfl⟩ := reads_get.1 hget
  obtain ⟨rfl, rfl⟩ := reads_pure.1 h
  refine ⟨?_, .refl⟩
  rw [words, List.isEmpty_map]

theorem reads_nextSpan {span : Span} (h : Reads (nextSpan input) s span s') : s.Takes [] s' := by
  obtain ⟨t, s₁, hget, h⟩ := reads_bind.1 h
  obtain ⟨rfl, rfl⟩ := reads_get.1 hget
  obtain ⟨-, rfl⟩ := reads_pure.1 h
  exact .refl

/-! ### Taking -/

theorem reads_refill {u : Unit} (h : Reads refill s u s') : s.Takes [] s' := by
  cases h
  exact ⟨⟨rfl, List.prefix_rfl, fun hsane => ⟨hsane.pending, hsane.ahead, hsane.quiet⟩⟩, rfl⟩

theorem reads_flush (h : Reads flush s f s') : f = s.pending.map .leaf ∧ s.Takes [] s' := by
  cases h
  refine ⟨rfl, ⟨rfl, List.prefix_rfl, fun hsane => ⟨?_, hsane.ahead, hsane.quiet⟩⟩, rfl⟩
  exact fun b hb => nomatch hb

theorem reads_bump (h : Reads bump s f s') :
    ∃ token, s.Takes [token] s' ∧ (s.Sane → Taken f token) := by
  unfold Reads bump at h
  split at h
  · cases h
  next word ahead hahead =>
    cases h
    refine ⟨word.token, ⟨⟨?_, List.prefix_rfl, fun hsane => ⟨?_, ?_, hsane.quiet⟩⟩, rfl⟩,
      fun hsane => ?_⟩
    · rw [words, hahead]
      rfl
    · exact hsane.ahead word (hahead ▸ List.mem_cons_self)
    · exact fun other hother => hsane.ahead other (hahead ▸ List.mem_cons_of_mem word hother)
    · exact ⟨s.pending, hsane.pending, rfl⟩

/-- The next word is taken if it is of the kind. -/
inductive EatSteps (kind : SyntaxKind) (s : ParseState) : Option Forest → ParseState → Prop where
  | eaten {f : Forest} {s₁ s' : ParseState} (hnext : Reads (nextIs kind) s true s₁)
      (hbump : Reads bump s₁ f s') : EatSteps kind s (some f) s'
  | left {s' : ParseState} (hnext : Reads (nextIs kind) s false s') : EatSteps kind s none s'

theorem eatSteps {kind : SyntaxKind} {o : Option Forest} (h : Reads (eat? kind) s o s') :
    EatSteps kind s o s' := by
  obtain ⟨b, s₁, hnext, h⟩ := reads_bind.1 h
  cases b with
  | true =>
    obtain ⟨f, s₂, hbump, h⟩ := reads_bind.1 h
    obtain ⟨rfl, rfl⟩ := reads_pure.1 h
    exact .eaten hnext hbump
  | false =>
    obtain ⟨rfl, rfl⟩ := reads_pure.1 h
    exact .left hnext

/-- The next word is taken if it is of the kind, and is left otherwise. -/
theorem reads_eat? {kind : SyntaxKind} {o : Option Forest} (h : Reads (eat? kind) s o s') :
    (∃ f token, o = some f ∧ token.kind = kind ∧ s.Takes [token] s' ∧ (s.Sane → Taken f token)) ∨
      o = none ∧ s.next ≠ some kind ∧ s.Takes [] s' := by
  cases eatSteps h with
  | @eaten f _ _ hnext hbump =>
    obtain ⟨hkind, htakes⟩ := reads_nextIs hnext
    obtain ⟨token, htakes', hforest⟩ := reads_bump hbump
    have hboth := htakes.after htakes'
    have hkind : some token.kind = some kind :=
      hboth.next_eq_some.symm.trans (of_decide_eq_true hkind.symm)
    exact .inl ⟨f, token, rfl, Option.some.inj hkind, hboth, fun hsane =>
      hforest (htakes.sane hsane)⟩
  | left hnext =>
    obtain ⟨hkind, htakes⟩ := reads_nextIs hnext
    exact .inr ⟨rfl, of_decide_eq_false hkind.symm, htakes⟩

theorem exists_takes_of_eat? {kind : SyntaxKind} {o : Option Forest}
    (h : Reads (eat? kind) s o s') : ∃ ts, s.Takes ts s' := by
  rcases reads_eat? h with ⟨f, token, -, -, htakes, -⟩ | ⟨-, -, htakes⟩
  · exact ⟨[token], htakes⟩
  · exact ⟨[], htakes⟩

/-! ### Reporting -/

theorem reads_report {kind : DiagnosticKind} {related : List Related} {u : Unit}
    (h : Reads (report input kind related) s u s') :
    s.Moves [] s' ∧ (s.Sane → s'.reports ≠ []) := by
  obtain ⟨span, s₁, hspan, h⟩ := reads_bind.1 h
  have htakes := reads_nextSpan hspan
  suffices hreport : s₁.Moves [] s' ∧ (s₁.Sane → s'.reports ≠ []) from
    ⟨htakes.toMoves.after hreport.1, fun hsane => hreport.2 (htakes.sane hsane)⟩
  have hs' := reads_modify.1 h
  dsimp only at hs'
  split at hs'
  all_goals subst hs'
  next hlast =>
    -- Nothing is added at the place of the last report, but then there was one.
    refine ⟨.refl, fun hsane hnone => ?_⟩
    rw [hsane.quiet hnone] at hlast
    cases hlast
  next =>
    refine ⟨⟨rfl, List.prefix_append _ _, fun hsane => ⟨hsane.pending, hsane.ahead, ?_⟩⟩, ?_⟩
    · exact fun hnone => absurd hnone (List.append_ne_nil_of_right_ne_nil _ (List.cons_ne_nil _ _))
    · exact fun _ => List.append_ne_nil_of_right_ne_nil _ (List.cons_ne_nil _ _)

end Parser

end CallChain
