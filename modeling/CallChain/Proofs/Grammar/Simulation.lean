import CallChain.Proofs.Grammar.Finishes
import CallChain.Proofs.Grammar.Reports
import CallChain.Proofs.Grammar.Tracking

/-!
# The reader drives a tree builder

The driver goes along with the reader that answers trees: after each production its calls have
built the trees that the reader answers. Where the reader stops at the limit, the driver goes on,
but takes no more words, and all that is left of its productions is to finish the open nodes.

The first index of `Tracks`, `Step` and `Halted` counts the looks since the last word was taken or
the last level was entered or left. On each way through the productions it stays below ten.

* `Follows`: a step of the reader and one of the driver.
* `follows_group`, `follows_quantified`: the productions that enter a level.
* `follows_regex`: the productions, one inside the other.
* `parse_driven`: the reading of a whole text.
-/

namespace CallChain

namespace Parser

open ParseState Driver

/-! ### The reader and the driver -/

section Follows

variable {α α' β β' : Type} {m : Parser α} {g : α → Parser α'} {M : Driver β} {G : β → Driver β'}
  {s s' : ParseState} {t t' : DriverState} {post : α → ParseState → β → DriverState → Prop}
  {post' : α' → ParseState → β' → DriverState → Prop} {halted halted' : DriverState → Prop}

/-- Where the reader answers, the driver comes to an end that fits. Where the reader stops at the
limit, the driver goes on to its end nevertheless. -/
def Follows (m : Parser α) (M : Driver β) (s : ParseState) (t : DriverState)
    (post : α → ParseState → β → DriverState → Prop) (halted : DriverState → Prop) : Prop :=
  match m s with
  | .ok (a, s') => Runs M t (post a s')
  | .error .nestingLimit => Runs M t fun _ => halted
  | .error (.fault _) => True

theorem Follows.bind (hm : Follows m M s t post halted)
    (hg : ∀ a s' b t', Reads m s a s' → post a s' b t' → Follows (g a) (G b) s' t' post' halted')
    (hhalted : ∀ b t', halted t' → Runs (G b) t' fun _ => halted') :
    Follows (m >>= g) (M >>= G) s t post' halted' := by
  unfold Follows at hm
  cases hstep : m s with
  | ok p =>
    rw [hstep] at hm
    obtain ⟨b, t', hM, hpost⟩ := hm
    have hnext := hg p.1 p.2 b t' hstep hpost
    unfold Follows at hnext ⊢
    rw [bind_of_reads hstep]
    split at hnext
    · exact Runs.step hM hnext
    · exact Runs.step hM hnext
    · trivial
  | error halt =>
    rw [hstep] at hm
    unfold Follows
    rw [bind_of_error hstep]
    cases halt with
    | nestingLimit => exact hm.bind hhalted
    | fault => trivial

theorem Follows.imp_halted (h : Follows m M s t post halted)
    (hhalted : ∀ t', halted t' → halted' t') : Follows m M s t post halted' := by
  unfold Follows at h ⊢
  split at h
  · exact h
  · exact Runs.mono h fun _ t' => hhalted t'
  · trivial

theorem Follows.mono {post₁ : α → ParseState → β → DriverState → Prop}
    (h : Follows m M s t post₁ halted) (hpost : ∀ a s' b t', post₁ a s' b t' → post a s' b t') :
    Follows m M s t post halted := by
  unfold Follows at h ⊢
  split at h
  · exact Runs.mono h fun b t' => hpost _ _ b t'
  · exact h
  · trivial

/-- What follows a step at which the limit cannot be hit. -/
theorem Follows.andThen (hm : Follows m M s t post fun _ => False)
    (hg : ∀ a s' b t', Reads m s a s' → post a s' b t' →
      Follows (g a) (G b) s' t' post' halted') : Follows (m >>= g) (M >>= G) s t post' halted' :=
  hm.bind hg fun _ _ h => h.elim

/-- A step of the reader alone. -/
theorem Follows.left {N : Driver β'} {a : α} (hm : Reads m s a s')
    (h : Follows (g a) N s' t post' halted') : Follows (m >>= g) N s t post' halted' := by
  unfold Follows
  rw [bind_of_reads hm]
  exact h

/-- A step of the driver alone. -/
theorem Follows.right {n : Parser α'} {b : β} (hM : M t = .ok (b, t'))
    (h : Follows n (G b) s t' post' halted') : Follows n (M >>= G) s t post' halted' := by
  unfold Follows at h ⊢
  split at h
  · exact Runs.step hM h
  · exact Runs.step hM h
  · trivial

/-- Before the limit has been hit. -/
theorem Follows.isFatal {n : Parser α'} {G : Bool → Driver β'} (hfatal : t.isFatal = false)
    (h : Follows n (G false) s t post' halted') : Follows n (isFatal >>= G) s t post' halted' :=
  .right (isFatal_eq hfatal) h

/-- The reader alone makes something of its answer. -/
theorem Follows.map {f : α → α'} {post₁ : α' → ParseState → β → DriverState → Prop}
    (h : Follows m M s t post halted) (hpost : ∀ a s' b t', post a s' b t' → post₁ (f a) s' b t') :
    Follows (do return f (← m)) M s t post₁ halted := by
  unfold Follows at h ⊢
  cases hstep : m s with
  | ok p =>
    rw [hstep] at h
    rw [bind_of_reads hstep]
    exact Runs.mono h fun b t' => hpost _ _ b t'
  | error halt =>
    rw [hstep] at h
    rw [bind_of_error hstep]
    cases halt with
    | nestingLimit => exact h
    | fault => trivial

theorem follows_pure {a : α} {b : β} (h : post a s b t) :
    Follows (pure a) (pure b) s t post halted := runs_pure h

/-- The driver alone, behind the reader. -/
theorem Follows.of_runs {a : α} (h : Runs M t (post a s)) :
    Follows (pure a) M s t post halted := h

theorem Follows.of_halted (h : Runs M t fun _ => halted) :
    Follows (throw .nestingLimit : Parser α) M s t post halted := h

theorem follows_fault {f : Fault} :
    Follows (throw (.fault f) : Parser α) M s t post halted := trivial

end Follows

/-! ### Single steps -/

section Steps

variable {k : Nat} {s : ParseState} {t : DriverState} {kind : SyntaxKind} {input : Input}
  {halted : DriverState → Prop}

theorem reads_look_of_cons {word : Word} {rest : List Word} (hahead : s.ahead = word :: rest)
    (hlooks : 0 < s.looks) :
    Reads look s (some word.token.kind) { s with looks := s.looks - 1 } := by
  obtain ⟨looks, hsucc⟩ := Nat.exists_eq_succ_of_ne_zero (Nat.pos_iff_ne_zero.1 hlooks)
  unfold Reads look
  rw [hahead, hsucc]
  rfl

/-- A look at the next word. -/
theorem follows_look {test : SyntaxKind → Bool} {test' : Option SyntaxKind → Bool}
    (hsome : ∀ kind, test' (some kind) = test kind) (hnone : test' none = false)
    (h : Tracks k s t) (hk : k + 2 ≤ lookLimit) :
    Follows (do return test' (← look)) (currently test) s t
      (fun b s' b' t' => b' = b ∧ t'.skip = t' ∧ Step (k + 1) t [] s' t') halted := by
  have hfuel := h.two_le_fuel hk
  rcases h.skip_cases with ⟨hnil, hend⟩ | ⟨token, rest, hcons, hword, hahead⟩
  · have hlook : Reads look s none s := by
      unfold Reads look
      rw [hend]
    refine .left hlook (.of_runs ⟨false, t.skip, currently_of_nil hnil, hnone.symm, ?_, ?_⟩)
    · exact DriverState.skip_skip t
    · exact ⟨h.skip.mono (Nat.le_succ k), rfl, .refl⟩
  · refine .left (reads_look_of_cons hahead (h.fuel_eq ▸ Nat.zero_lt_of_lt hfuel)) (.of_runs ?_)
    have hskip : { t.skip with fuel := t.fuel - 1 }.skip = { t.skip with fuel := t.fuel - 1 } :=
      DriverState.skip_of_cons hcons hword
    have hstep : Step (k + 1) t [] _ { t.skip with fuel := t.fuel - 1 } := ⟨h.spend hk, rfl, .refl⟩
    exact ⟨_, _, currently_of_cons hcons hfuel, (hsome token.kind).symm, hskip, hstep⟩

theorem follows_nextIs (h : Tracks k s t) (hk : k + 2 ≤ lookLimit) :
    Follows (nextIs kind) (currently (· = kind)) s t
      (fun b s' b' t' => b' = b ∧ t'.skip = t' ∧ Step (k + 1) t [] s' t') halted :=
  @follows_look k s t halted (· = kind) (· = some kind) (fun _ => by simp) (by simp) h hk

theorem follows_nextIn {kinds : KindSet} (h : Tracks k s t) (hk : k + 2 ≤ lookLimit) :
    Follows (nextIn kinds) (currently kinds.contains) s t
      (fun b s' b' t' => b' = b ∧ t'.skip = t' ∧ Step (k + 1) t [] s' t') halted :=
  @follows_look k s t halted kinds.contains (·.any kinds.contains) (fun _ => rfl) rfl h hk

/-- A round of a loop, or its end. -/
theorem follows_loop {α β : Type} {kinds : KindSet} {n n' : Parser α} {N N' : Driver β}
    {post : α → ParseState → β → DriverState → Prop} (h : Tracks k s t) (hk : k + 2 ≤ lookLimit)
    (hmore : ∀ s' t', s.next.any kinds.contains = true → s.Idle s' → t'.skip = t' →
      Step (k + 1) t [] s' t' → Follows n N s' t' post halted)
    (hstop : ∀ s' t', Step (k + 1) t [] s' t' → Follows n' N' s' t' post halted) :
    Follows (do if ← nextIn kinds then n else n')
      (do if (← currently kinds.contains) && !(← isFatal) then N else N') s t post halted := by
  refine (follows_nextIn h hk).andThen fun b s₁ b' t₁ hreads hlook => ?_
  obtain ⟨rfl, hskip, hlook⟩ := hlook
  refine .isFatal hlook.tracks.isFatal_eq ?_
  rw [Bool.not_false, Bool.and_true]
  split
  next hnext =>
    rw [(reads_nextIn hreads).1] at hnext
    exact hmore s₁ t₁ hnext (idle_nextIn hreads) hskip hlook
  next => exact hstop s₁ t₁ hlook

theorem follows_bump (h : Tracks k s t) :
    Follows Parser.bump Driver.bump s t (fun f s' _ => Step 0 t f s') halted := by
  unfold Follows Parser.bump
  rcases h.skip_cases with ⟨-, hend⟩ | ⟨token, rest, hcons, -, hahead⟩
  · rw [hend]
    trivial
  · rw [hahead]
    refine ⟨(), _, bump_of_cons hcons, ?_, rfl, ?_⟩
    · exact { h with
        words_eq := rfl
        blanks_eq := rfl
        fuel_eq := rfl
        fuel_ge := Nat.le_refl _ }
    · rw [h.skip_buffer, List.map_append]
      exact (built_tokens _).append (built_token token)

/-- The next word is taken if it is of the kind. -/
theorem follows_eat? (h : Tracks k s t) (hk : k + 2 ≤ lookLimit) :
    Follows (eat? kind) (eat kind) s t (fun o s' b t' =>
      (∃ f, o = some f ∧ b = true ∧ Step 0 t f s' t') ∨
        o = none ∧ b = false ∧ Step (k + 1) t [] s' t') halted := by
  refine (follows_nextIs h hk).andThen fun b s₁ b' t₁ _ hlook => ?_
  obtain ⟨rfl, -, hlook⟩ := hlook
  cases b' with
  | true =>
    refine (follows_bump hlook.tracks).andThen fun f s₂ u t₂ _ hbump => follows_pure (.inl ?_)
    exact ⟨f, rfl, rfl, hlook.after hbump⟩
  | false => exact follows_pure (.inr ⟨rfl, rfl, hlook⟩)

theorem follows_eat?_isSome (h : Tracks k s t) (hk : k + 2 ≤ lookLimit) :
    Follows (eat? kind) (eat kind) s t (fun o s' b t' =>
      b = o.isSome ∧ Step (k + 1) t (o.getD []) s' t') halted := by
  refine (follows_eat? h hk).mono fun o s' b t' heat => ?_
  rcases heat with ⟨f, rfl, rfl, htaken⟩ | ⟨rfl, rfl, hnone⟩
  · exact ⟨rfl, htaken.mono (Nat.zero_le _)⟩
  · exact ⟨rfl, hnone⟩

theorem follows_nextSpan (h : Tracks k s t) :
    Follows (nextSpan input) (currentSpan input) s t
      (fun span s' span' t' => span' = span ∧ Step k t [] s' t') halted := by
  refine ⟨_, t.skip, rfl, ?_, h.skip, rfl, .refl⟩
  rw [h.head?_eq, Option.map_map]
  rfl

theorem follows_report {problem : DiagnosticKind} {related : List Related} (h : Tracks k s t) :
    Follows (Parser.report input problem related) (Driver.report input problem related) s t
      (fun _ s' _ => Step k t [] s') halted := by
  unfold Follows
  rw [report_eq]
  have hskip := h.skip
  have hwords : t.skip.ahead.head? = s.words.head? := by
    rw [h.head?_eq, ParseState.words, List.head?_map]
  have hsame : s.diagnosis input problem related =
      ⟨problem, input.source, (t.skip.ahead.head?.map (·.span)).getD (.emptyAt input.stop),
        t.skip.ahead.head?.map (·.text), related⟩ := by
    rw [hwords]
    rfl
  have hrun : Driver.report input problem related t =
      .ok ((), if t.lastReport = some (s.diagnosis input problem related).span.start then t.skip
        else { t.skip with
          lastReport := some (s.diagnosis input problem related).span.start
          reports := t.reports ++ [s.diagnosis input problem related] }) := by
    rw [hsame]
    rfl
  rw [h.lastReport_eq, h.reports_eq, start_diagnosis] at hrun
  refine ⟨(), _, hrun, ?_⟩
  unfold ParseState.reported
  split
  · exact ⟨hskip, rfl, .refl⟩
  · refine ⟨?_, rfl, .refl⟩
    exact { hskip with
      lastReport_eq := rfl
      reports_eq := rfl }

/-- A report that is made on a condition, before the rest of both. -/
theorem follows_reportIf {α β : Type} {p q : Prop} [Decidable p] [Decidable q]
    {problem : DiagnosticKind} {related : List Related} {n : Unit → Parser α} {N : Unit → Driver β}
    {post : α → ParseState → β → DriverState → Prop} (hiff : p ↔ q) (h : Tracks k s t)
    (hnext : ∀ s' t', Step k t [] s' t' → Follows (n ()) (N ()) s' t' post halted) :
    Follows (if p then Parser.report input problem related >>= n else n ())
      (if q then Driver.report input problem related >>= N else N ()) s t post halted := by
  by_cases hp : p
  · rw [if_pos hp, if_pos (hiff.1 hp)]
    exact (follows_report h).andThen fun _ s' _ t' _ hreport => hnext s' t' hreport
  · rw [if_neg hp, if_neg (mt hiff.2 hp)]
    exact hnext s t h.refl

theorem follows_atEnd (h : Tracks k s t) :
    Follows Parser.atEnd Driver.atEnd s t
      (fun b s' b' t' => b' = b ∧ s' = s ∧ t'.skip = t' ∧ Step k t [] s' t') halted :=
  ⟨_, t.skip, rfl, h.isEmpty_eq, rfl, t.skip_skip, h.skip, rfl, .refl⟩

theorem follows_flush (h : Tracks k s t) :
    Follows flush checkpoint s t (fun f s' count t' => ∃ a, count = a.length ∧ s'.pending = [] ∧
      Marked k t f a [] s' t') halted := by
  have hdrained := h.drained
  refine ⟨_, t.skip.drain.push .checkpoint, rfl, t.skip.drain.calls, rfl, rfl, ?_⟩
  exact ⟨hdrained.tracks.push, rfl, hdrained.built, since_checkpoint⟩

end Steps

/-! ### Atoms -/

section Atoms

variable {k : Nat} {s : ParseState} {t : DriverState} {kind : SyntaxKind} {input : Input}
  {room limit : Nat} {inside : Option (Parser Forest)} {M : Driver Unit}
  {halted : DriverState → Prop}

theorem follows_leaf (h : Tracks k s t) (hpending : s.pending = []) :
    Follows (Parser.leaf kind) (Driver.leaf kind) s t (fun f s' _ => Step 0 t f s') halted := by
  refine .right (startNode_of_nil (h.buffer_eq_nil hpending)) ?_
  refine (follows_bump h.push).andThen fun f s₁ u t₁ _ hbump => ?_
  exact .of_runs ⟨(), _, rfl, hbump.node⟩

theorem follows_reference (h : Tracks k s t) (hpending : s.pending = []) :
    Follows (Parser.reference input) (Driver.reference input) s t
      (fun f s' _ => Step 2 t f s') halted := by
  refine .right (startNode_of_nil (h.buffer_eq_nil hpending)) ?_
  refine (follows_nextSpan h.push).andThen fun opening s₁ _ t₁ _ hspan => ?_
  obtain ⟨rfl, hspan⟩ := hspan
  refine (follows_bump hspan.tracks).andThen fun bracket s₂ _ t₂ _ hbump => ?_
  have hbracket := hspan.after hbump
  refine (follows_eat?_isSome hbracket.tracks (by decide)).andThen fun name s₃ b t₃ _ hname => ?_
  obtain ⟨rfl, hname⟩ := hname
  refine follows_reportIf (by simp) hname.tracks fun s₄ t₄ hmissing => ?_
  refine (follows_eat?_isSome hmissing.tracks (by decide)).andThen fun closing s₅ b t₅ _ hend => ?_
  obtain ⟨rfl, hend⟩ := hend
  refine follows_reportIf (by simp) hend.tracks fun s₆ t₆ hunclosed => ?_
  have hinside := ((hbracket.append hname).stay hmissing).append hend
  exact .of_runs ⟨(), _, rfl, (hinside.stay hunclosed).node⟩

/-- What a group ends with, whether its inside has been read or not. -/
theorem follows_closeGroup {t₀ : DriverState} {bracket body : Forest} {opening : Span}
    (hbody : Step 7 (t₀.entered.push (.start .group)) (bracket ++ body) s t) : Follows (do
      let closing ← eat? .parenClose
      if closing.isNone then
        Parser.report input .unclosedGroup [⟨"group started here", opening⟩]
      refill
      return [Tree.node .group (bracket ++ body ++ closing.getD [])])
    (closeGroup input opening) s t
    (fun f s' _ => Step 0 t₀ f s') halted := by
  refine (follows_eat?_isSome hbody.tracks (by decide)).andThen fun closing s₁ b t₁ _ hclosing => ?_
  obtain ⟨rfl, hclosing⟩ := hclosing
  refine .isFatal hclosing.tracks.isFatal_eq ?_
  refine follows_reportIf (by simp) hclosing.tracks fun s₂ t₂ hunclosed => ?_
  have hnode := ((hbody.append hclosing).stay hunclosed).node
  refine .left rfl (.of_runs ⟨(), _, rfl, hnode.tracks.left, ?_, hnode.built⟩)
  exact congrArg (· - 1) hnode.depth_eq

/-- What the limit leaves of a group. -/
theorem runs_closeGroup {k : Nat} {a : List BuilderCall} {opening : Span}
    (h : Halted k (a ++ [.start .group]) t) (hk : k + 2 ≤ lookLimit) :
    Runs (closeGroup input opening) t fun _ => Halted 0 a := by
  refine (runs_eat h hk rfl).bind fun b t₁ heat => ?_
  obtain ⟨rfl, h₁⟩ := heat
  refine .step (isFatal_eq h₁.isFatal_eq) ⟨(), _, rfl, ?_⟩
  exact h₁.node.left

/-- The insides of groups are read alike, with one level less. Without room there is none. -/
def InsideFollows (limit room : Nat) : Option (Parser Forest) → Driver Unit → Prop
  | none, _ => room = 0
  | some reader, M => ∃ less, room = less + 1 ∧ ∀ {s : ParseState} {t : DriverState},
      Tracks 4 s t → t.depth + less = limit →
        Follows reader M s t (fun f s' _ => Step 7 t f s') (Halted 9 t.calls)

theorem follows_group (hinside : InsideFollows limit room inside M) (h : Tracks k s t)
    (hk : k ≤ 6) (hpending : s.pending = []) (hnext : s.next = some .parenOpen)
    (hroom : t.depth + room = limit) :
    Follows (Parser.group input inside) (Driver.group input limit M) s t
      (fun f s' _ => Step 0 t f s') (Halted 6 t.calls) := by
  cases inside with
  | none =>
    have hnone : room = 0 := hinside
    refine .of_halted (.step (enter_of_le (by omega)) (runs_pure ?_))
    exact (h.halted (h.skip_eq hpending) hnext rfl .refl).mono hk
  | some reader =>
    obtain ⟨less, rfl, hinside⟩ := hinside
    refine .left rfl (.right (enter_of_lt (by omega)) ?_)
    have hentered := h.entered
    refine .right (startNode_of_nil (hentered.buffer_eq_nil hpending)) ?_
    refine (follows_nextSpan hentered.push).andThen fun _ s₁ opening t₁ _ hspan => ?_
    obtain ⟨rfl, hspan⟩ := hspan
    refine (follows_bump hspan.tracks).andThen fun bracket s₂ _ t₂ _ hbump => ?_
    have hbracket := hspan.after hbump
    refine (follows_nextIs hbracket.tracks (by decide)).andThen fun closed s₃ _ t₃ _ hclosed => ?_
    obtain ⟨rfl, hskip, hclosed⟩ := hclosed
    refine .left rfl ?_
    have hbody := hbracket.stay hclosed
    -- The three ways to the end of the group meet again behind its inside.
    have hclose {body : Forest} {s₄ : ParseState} {t₄ : DriverState} (h₄ : Step 7 t₃ body s₄ t₄) :=
      @follows_closeGroup s₄ t₄ input (Halted 6 t.calls) t bracket body opening (hbody.append h₄)
    split
    · refine (follows_report hclosed.tracks).andThen fun _ s₄ _ t₄ _ hreport => ?_
      exact .left rfl (hclose (hreport.mono (by decide)))
    · refine .right rfl ?_
      rw [hskip, ← hclosed.tracks.isEmpty_eq, hskip]
      split
      next hend =>
        rw [hend]
        exact .left rfl (hclose (hclosed.tracks.refl.mono (by decide)))
      next hmore =>
        rw [Bool.eq_false_iff.2 hmore]
        have hdepth : t₃.depth + less = limit := by
          have := hbody.depth_eq
          have : t₃.depth = t.depth + 1 := this
          omega
        refine (hinside (hclosed.tracks.mono (by decide)) hdepth).bind ?_ ?_
        · exact fun body s₄ _ t₄ _ hinner => hclose hinner
        · intro _ t₄ h₄
          have hend := @runs_closeGroup _ input _ _ opening (h₄.behind hbody.built) (by decide)
          exact hend.mono fun _ _ h₅ => h₅.mono (by decide)

theorem follows_atomic (hinside : InsideFollows limit room inside M) (h : Tracks 5 s t)
    (hpending : s.pending = []) (hfirst : s.next.any KindSet.atomFirst.contains = true)
    (hroom : t.depth + room = limit) :
    Follows (Parser.atomic input inside) (Driver.atomic input limit M) s t
      (fun f s' _ => Step 2 t f s') (Halted 6 t.calls) := by
  have hfuel := h.two_le_fuel (by decide)
  rcases h.skip_cases with ⟨-, hend⟩ | ⟨token, rest, hcons, -, hahead⟩
  · rw [ParseState.next, ParseState.words, hend] at hfirst
    cases hfirst
  · have hnext : s.next = some token.kind := by
      rw [ParseState.next, ParseState.words, hahead]
      rfl
    refine .left (reads_look_of_cons hahead (h.fuel_eq ▸ Nat.zero_lt_of_lt hfuel)) ?_
    refine .right (current_of_cons hcons hfuel) ?_
    have hspent := h.spend (by decide)
    have hgroup (hkind : token.kind = .parenOpen) :=
      @follows_group _ _ _ input _ _ _ _ hinside hspent (by decide) hpending (hkind ▸ hnext) hroom
    -- What comes after the look has started from the same calls and from the same level.
    have hbefore {n : Nat} {f : Forest} {s' : ParseState} {t' : DriverState} (hn : n ≤ 2)
        (hstep : Step n { t.skip with fuel := t.fuel - 1 } f s' t') : Step 2 t f s' t' :=
      ⟨hstep.tracks.mono hn, hstep.depth_eq, hstep.built⟩
    rw [hnext] at hfirst
    generalize token.kind = kind at hfirst hgroup
    cases kind
    case parenOpen => exact (hgroup rfl).mono fun _ _ _ _ h => hbefore (by decide) h
    case angleOpen =>
      exact (follows_reference hspent hpending).mono fun _ _ _ _ h => hbefore (by decide) h
    case id => exact (follows_leaf hspent hpending).mono fun _ _ _ _ h => hbefore (by decide) h
    case caret | slash | bang =>
      exact (follows_leaf hspent hpending).mono fun _ _ _ _ h => hbefore (by decide) h
    all_goals contradiction

end Atoms

/-! ### Quantifiers -/

section Quantifiers

variable {k : Nat} {s : ParseState} {t : DriverState} {input : Input} {room limit count fuel : Nat}
  {operand f : Forest} {a : List BuilderCall} {inside : Option (Parser Forest)} {M : Driver Unit}

theorem quantifiers_eq : quantifiers limit count fuel = (do
    if (← currently KindSet.quantifiers.contains) && !(← isFatal) then
      match fuel with
      | 0 => throw .endless
      | fuel + 1 =>
        if ← enter limit then
          call (.startAt count .quantified)
          Driver.bump
          call .finish
          quantifiers limit count fuel
          leave) := by
  cases fuel <;> rfl

/-- Behind the limit no quantifier is taken. -/
theorem runs_quantifiers (h : Halted k a t) (hk : k + 2 ≤ lookLimit) :
    Runs (quantifiers limit count fuel) t fun _ => Halted (k + 1) a := by
  rw [quantifiers_eq]
  exact runs_loop h hk fun _ h₁ => runs_pure h₁

/-- Each quantifier is put around what has been built since the checkpoint. -/
theorem follows_quantified {t₀ : DriverState} (h : Marked 2 t₀ f a operand s t)
    (hroom : t.depth + room = limit) (hfuel : s.ahead.length ≤ fuel) :
    Follows (quantified room operand) (quantifiers limit a.length fuel) s t
      (fun g s' _ => Marked 3 t₀ f a g s') (Halted 3 t₀.calls) := by
  induction fuel generalizing operand s t t₀ room with
  | zero =>
    rw [quantified_eq, quantifiers_eq]
    refine follows_loop h.tracks (by decide) (fun s₁ t₁ hmark _ _ _ => ?_) fun s₁ t₁ hlook => ?_
    · have hnil : s.ahead = [] := List.eq_nil_of_length_eq_zero (Nat.le_zero.1 hfuel)
      rw [ParseState.next, ParseState.words, hnil] at hmark
      cases hmark
    · exact follows_pure (h.stay hlook)
  | succ fuel ih =>
    rw [quantified_eq, quantifiers_eq]
    refine follows_loop h.tracks (by decide) (fun s₁ t₁ hmark hidle hskip hlook => ?_)
      fun s₁ t₁ hlook => ?_
    · have h₁ := h.stay hlook
      have hdepth := hlook.depth_eq
      cases room with
      | zero =>
        -- the limit is hit where the level is to be entered
        obtain ⟨kind, hnext, hkind⟩ := exists_next_of_any hmark
        have hnext₁ : s₁.next = some kind := hidle.next_eq.trans hnext
        have hnesting : KindSet.nesting.contains kind = true := by
          revert hkind
          cases kind <;> decide
        refine .of_halted (.step (enter_of_le (by omega)) (runs_pure ?_))
        exact hlook.tracks.halted hskip hnext₁ hnesting h₁.step.built
      | succ room =>
        refine .left rfl (.right (enter_of_lt (by omega)) (.right rfl ?_))
        refine (follows_bump h₁.entered.tracks.push).andThen fun mark s₂ _ t₂ hreads hbump => ?_
        refine .right rfl ?_
        have hwhole := h₁.entered.wrap hbump
        have hshorter : s₂.ahead.length ≤ fuel := by
          obtain ⟨token, htakes, -⟩ := reads_bump hreads
          have hwords : s₁.words = token :: s₂.words := htakes.words_eq
          have hlength := congrArg List.length (hwords.symm.trans hidle.words_eq)
          rw [List.length_cons, ParseState.words, ParseState.words, List.length_map,
            List.length_map] at hlength
          omega
        have hroom₂ : (t₂.push .finish).depth + room = limit := by
          have hsame : (t₂.push .finish).depth = t₀.depth + 1 := hwhole.depth_eq
          have := h₁.depth_eq
          omega
        refine (ih (hwhole.mono (by decide)) hroom₂ hshorter).bind ?_ ?_
        · intro g s₃ _ t₃ _ hrest
          exact .left rfl (.of_runs ⟨(), t₃.left, rfl, hrest.left.mono (by decide)⟩)
        · exact fun _ t₃ h₃ => ⟨(), t₃.left, rfl, h₃.left.mono (by decide)⟩
    · exact follows_pure (h.stay hlook)

/-- An operand with its quantifiers, behind a checkpoint of its own. -/
theorem follows_modified (hinside : InsideFollows limit room inside M) (h : Tracks 5 s t)
    (hfirst : s.next.any KindSet.atomFirst.contains = true) (hroom : t.depth + room = limit) :
    Follows (Parser.modified input room inside) (Driver.modified input limit M) s t
      (fun f s' _ => Step 3 t f s') (Halted 7 t.calls) := by
  refine (follows_flush h).andThen fun before s₁ count t₁ hreads hmarked => ?_
  obtain ⟨a, rfl, hpending, hmarked⟩ := hmarked
  have hfirst₁ : s₁.next.any KindSet.atomFirst.contains = true := by
    rwa [(reads_flush hreads).2.toMoves.next_eq]
  have hroom₁ : t₁.depth + room = limit := hmarked.depth_eq ▸ hroom
  refine (follows_atomic hinside hmarked.tracks hpending hfirst₁ hroom₁).bind ?_ ?_
  · intro operand s₂ _ t₂ _ hoperand
    have hroom₂ : t₂.depth + room = limit := hoperand.depth_eq ▸ hroom₁
    have hwhole := follows_quantified (hmarked.append hoperand) hroom₂ hoperand.tracks.length_le
    refine .right rfl ((hwhole.map fun whole s₃ _ t₃ hread => hread.step).imp_halted ?_)
    exact fun t₃ h₃ => h₃.mono (by decide)
  · -- behind a group for which there is no room
    intro _ t₂ h₂
    exact .step rfl (runs_quantifiers (h₂.behind hmarked.step.built) (by decide))

end Quantifiers

/-! ### Sequences and choices -/

section Sequences

variable {k : Nat} {s : ParseState} {t : DriverState} {input : Input} {room limit fuel more : Nat}
  {a : List BuilderCall} {inside : Option (Parser Forest)} {M : Driver Unit}

theorem factors_eq : Driver.factors input limit M more = (do
    if (← currently KindSet.atomFirst.contains) && !(← isFatal) then
      match more with
      | 0 => throw .endless
      | more + 1 =>
        Driver.modified input limit M
        Driver.factors input limit M more) := by
  cases more <;> rfl

theorem runs_factors (h : Halted k a t) (hk : k + 2 ≤ lookLimit) :
    Runs (Driver.factors input limit M more) t fun _ => Halted (k + 1) a := by
  rw [factors_eq]
  exact runs_loop h hk fun _ h₁ => runs_pure h₁

/-- The fuel of the driver counts tokens, that of the reader words. -/
theorem follows_factors (hinside : InsideFollows limit room inside M) (h : Tracks 4 s t)
    (hroom : t.depth + room = limit) (hfuel : fuel ≤ more) :
    Follows (Parser.factors input room inside fuel) (Driver.factors input limit M more) s t
      (fun f s' _ => Step 5 t f s') (Halted 8 t.calls) := by
  induction fuel generalizing s t more with
  | zero =>
    unfold Parser.factors
    rw [factors_eq]
    refine follows_loop h (by decide) (fun s₁ t₁ _ _ _ _ => .left rfl follows_fault) ?_
    exact fun s₁ t₁ hlook => follows_pure hlook
  | succ fuel ih =>
    obtain ⟨more, rfl⟩ := Nat.exists_eq_succ_of_ne_zero (Nat.ne_zero_of_lt hfuel)
    unfold Parser.factors
    rw [factors_eq]
    refine follows_loop h (by decide) (fun s₁ t₁ hfirst hidle _ hlook => ?_) ?_
    · have hfirst₁ : s₁.next.any KindSet.atomFirst.contains = true := by
        rwa [hidle.next_eq]
      have hroom₁ : t₁.depth + room = limit := hlook.depth_eq ▸ hroom
      refine (follows_modified hinside hlook.tracks hfirst₁ hroom₁).bind ?_ ?_
      · intro operand s₂ _ t₂ _ hoperand
        have hroom₂ : t₂.depth + room = limit := hoperand.depth_eq ▸ hroom₁
        have hmore := ih (hoperand.tracks.mono (by decide)) hroom₂ (Nat.le_of_succ_le_succ hfuel)
        have hbefore := hlook.after hoperand
        refine (hmore.map fun rest s₃ _ t₃ hrest => hbefore.append hrest).imp_halted ?_
        exact fun t₃ h₃ => h₃.behind hbefore.built
      · exact fun _ t₂ h₂ => runs_factors (h₂.behind hlook.built) (by decide)
    · exact fun s₁ t₁ hlook => follows_pure hlook

theorem follows_concat (hinside : InsideFollows limit room inside M) (h : Tracks 4 s t)
    (hroom : t.depth + room = limit) :
    Follows (Parser.concat input room inside) (Driver.concat input limit M) s t
      (fun f s' _ => Step 5 t f s') (Halted 8 t.calls) := by
  refine (follows_nextIn h (by decide)).andThen fun b s₁ b' t₁ hreads hlook => ?_
  obtain ⟨rfl, -, hlook⟩ := hlook
  split
  next hfirst =>
    refine (follows_flush hlook.tracks).andThen fun before s₂ count t₂ hflush hmarked => ?_
    obtain ⟨a, rfl, -, hmarked⟩ := hmarked
    have hfirst₂ : s₂.next.any KindSet.atomFirst.contains = true := by
      obtain ⟨rfl, htakes⟩ := reads_nextIn hreads
      rwa [(htakes.after (reads_flush hflush).2).toMoves.next_eq]
    have hroom₂ : t₂.depth + room = limit := hmarked.depth_eq ▸ hlook.depth_eq ▸ hroom
    refine (follows_modified hinside hmarked.tracks hfirst₂ hroom₂).bind ?_ ?_
    · intro first s₃ _ t₃ _ hfirst
      have hoperand := hmarked.append hfirst
      refine follows_loop hfirst.tracks (by decide) (fun s₄ t₄ _ _ _ hlook₄ => ?_) ?_
      · have h₄ := hoperand.stay hlook₄
        refine .left rfl (.right rfl (.right rfl ?_))
        have hroom₄ : t₄.depth + room = limit := by
          rw [h₄.depth_eq, hlook.depth_eq]
          exact hroom
        have hpushed : Tracks 4 s₄ (t₄.push (.startAt a.length .concat)) := h₄.tracks.push
        refine (follows_factors hinside hpushed hroom₄ h₄.tracks.length_le).bind ?_ ?_
        · -- the node goes around the first operand, too, as the checkpoint is before it
          intro rest s₅ _ t₅ _ hrest
          exact .of_runs ⟨(), _, rfl, hlook.after (h₄.wrap hrest).step⟩
        · intro _ t₅ h₅
          exact ⟨(), _, rfl, (h₅.wrap h₄).behind hlook.built⟩
      · intro s₄ t₄ hlook₄
        exact follows_pure (hlook.after ((hoperand.stay hlook₄).step.mono (by decide)))
    · -- the limit is hit in the first operand, so that no node is started around it
      intro _ t₃ h₃
      refine runs_loop (h₃.behind hmarked.step.built) (by decide) fun t₄ h₄ => runs_pure ?_
      exact h₄.behind hlook.built
  next => exact (follows_report hlook.tracks).map fun _ s₂ _ t₂ hreport => hlook.after hreport

theorem branches_eq : Driver.branches input limit M more = (do
    if ← eat .pipe then
      match more with
      | 0 => throw .endless
      | more + 1 =>
        Driver.concat input limit M
        Driver.branches input limit M more) := by
  cases more <;> rfl

theorem runs_branches (h : Halted k a t) (hk : k + 2 ≤ lookLimit) :
    Runs (Driver.branches input limit M more) t fun _ => Halted (k + 1) a := by
  rw [branches_eq]
  refine (runs_eat h hk rfl).bind fun b t₁ heat => ?_
  obtain ⟨rfl, h₁⟩ := heat
  exact runs_pure h₁

theorem follows_branches (hinside : InsideFollows limit room inside M) (h : Tracks 6 s t)
    (hroom : t.depth + room = limit) (hfuel : fuel ≤ more) :
    Follows (Parser.branches input room inside fuel) (Driver.branches input limit M more) s t
      (fun f s' _ => Step 7 t f s') (Halted 9 t.calls) := by
  induction fuel generalizing s t more with
  | zero =>
    unfold Parser.branches
    rw [branches_eq]
    refine (follows_eat? h (by decide)).andThen fun o s₁ b t₁ _ heat => ?_
    rcases heat with ⟨bar, rfl, rfl, -⟩ | ⟨rfl, rfl, hnone⟩
    · exact .left rfl follows_fault
    · exact follows_pure hnone
  | succ fuel ih =>
    obtain ⟨more, rfl⟩ := Nat.exists_eq_succ_of_ne_zero (Nat.ne_zero_of_lt hfuel)
    unfold Parser.branches
    rw [branches_eq]
    refine (follows_eat? h (by decide)).andThen fun o s₁ b t₁ _ heat => ?_
    rcases heat with ⟨bar, rfl, rfl, hbar⟩ | ⟨rfl, rfl, hnone⟩
    · have hroom₁ : t₁.depth + room = limit := hbar.depth_eq ▸ hroom
      refine (follows_concat hinside (hbar.tracks.mono (by decide)) hroom₁).bind ?_ ?_
      · intro operand s₂ _ t₂ _ hoperand
        have hroom₂ : t₂.depth + room = limit := hoperand.depth_eq ▸ hroom₁
        have hmore := ih (hoperand.tracks.mono (by decide)) hroom₂ (Nat.le_of_succ_le_succ hfuel)
        have hbefore := hbar.append hoperand
        refine (hmore.map fun rest s₃ _ t₃ hrest => hbefore.append hrest).imp_halted ?_
        exact fun t₃ h₃ => h₃.behind hbefore.built
      · exact fun _ t₂ h₂ => runs_branches (h₂.behind hbar.built) (by decide)
    · exact follows_pure hnone

theorem follows_union (hinside : InsideFollows limit room inside M) (h : Tracks 4 s t)
    (hroom : t.depth + room = limit) :
    Follows (Parser.union input room inside) (Driver.union input limit M) s t
      (fun f s' _ => Step 7 t f s') (Halted 9 t.calls) := by
  refine (follows_flush h).andThen fun before s₁ count t₁ _ hmarked => ?_
  obtain ⟨a, rfl, -, hmarked⟩ := hmarked
  have hroom₁ : t₁.depth + room = limit := hmarked.depth_eq ▸ hroom
  refine (follows_concat hinside hmarked.tracks hroom₁).bind ?_ ?_
  · intro first s₂ _ t₂ _ hfirst
    have hoperand := hmarked.append hfirst
    refine (follows_nextIs hfirst.tracks (by decide)).andThen fun b s₃ b' t₃ _ hlook => ?_
    obtain ⟨rfl, -, hlook⟩ := hlook
    have h₃ := hoperand.stay hlook
    split
    · refine .left rfl (.right rfl (.right rfl ?_))
      have hroom₃ : t₃.depth + room = limit := by
        rw [h₃.depth_eq]
        exact hroom
      have hpushed : Tracks 6 s₃ (t₃.push (.startAt a.length .alt)) := h₃.tracks.push
      refine (follows_branches hinside hpushed hroom₃ h₃.tracks.length_le).bind ?_ ?_
      · intro rest s₄ _ t₄ _ hrest
        exact .of_runs ⟨(), _, rfl, (h₃.wrap hrest).step⟩
      · exact fun _ t₄ h₄ => ⟨(), _, rfl, h₄.wrap h₃⟩
    · exact follows_pure (h₃.step.mono (by decide))
  · -- no bar is where the limit is hit
    intro _ t₂ h₂
    refine (runs_currently (h₂.behind hmarked.step.built) (by decide)).bind fun b t₃ hlook => ?_
    obtain ⟨⟨kind, hkind, rfl⟩, h₃⟩ := hlook
    have hne : kind ≠ .pipe := by
      rintro rfl
      cases hkind
    rw [decide_eq_false hne]
    exact runs_pure h₃

end Sequences

/-- A regex, with as many levels of groups as there is room for. -/
theorem follows_regex {s : ParseState} {t : DriverState} {input : Input} {room limit : Nat}
    (h : Tracks 4 s t) (hroom : t.depth + room = limit) :
    Follows (Parser.regex input room) (Driver.regex input limit room) s t
      (fun f s' _ => Step 7 t f s') (Halted 9 t.calls) := by
  induction room generalizing s t with
  | zero =>
    have hinside : InsideFollows limit 0 none (throw .endless) := rfl
    exact follows_union hinside h hroom
  | succ room ih =>
    have hinside : InsideFollows limit (room + 1) (some (Parser.regex input room))
        (Driver.regex input limit room) := ⟨room, rfl, ih⟩
    exact follows_union hinside h hroom

/-! ### Whole texts -/

section Texts

variable {k : Nat} {s : ParseState} {t : DriverState} {input : Input} {limit fuel more : Nat}
  {a : List BuilderCall}

/-- The blanks before a word that is set aside stand outside of its node. -/
theorem follows_setAside {halted : DriverState → Prop} (h : Tracks k s t) (hmore : s.words ≠ []) :
    Follows (Parser.setAside input) (Driver.setAside input) s t (fun f s' _ => Step 0 t f s')
      halted := by
  refine (follows_report h).andThen fun _ s₁ _ t₁ hreads hreport => ?_
  refine (follows_atEnd hreport.tracks).andThen fun b s₂ b' t₂ hended hend => ?_
  obtain ⟨rfl, rfl, hskip, hend⟩ := hend
  have hwords : s.words = s₂.words := (reads_report hreads).1.words_eq
  obtain ⟨rfl, -⟩ := reads_atEnd hended
  have hdrained := hend.tracks.drained
  rw [hskip] at hdrained
  split
  next hnil => exact absurd (hwords.trans (List.isEmpty_iff.1 hnil)) hmore
  next hword =>
    rw [Bool.eq_false_iff.2 hword]
    refine .left rfl (.right rfl ?_)
    refine (follows_bump hdrained.tracks.push).andThen fun word s₃ _ t₃ _ hbump => ?_
    have hnode := hdrained.append hbump.node
    exact .of_runs ⟨(), _, rfl, (hreport.after hend).after hnode⟩

theorem leftovers_eq : Driver.leftovers input limit more = (do
    if !(← Driver.atEnd) && !(← isFatal) then
      match more with
      | 0 => throw .endless
      | more + 1 =>
        Driver.setAside input
        if ← currently KindSet.atomFirst.contains then
          Driver.regex input limit limit
        Driver.leftovers input limit more) := by
  cases more <;> rfl

theorem runs_leftovers (h : Halted k a t) :
    Runs (Driver.leftovers input limit more) t fun _ => Halted k a := by
  rw [leftovers_eq]
  have hended : Driver.atEnd t = .ok (t.ahead.isEmpty, t) := by
    show Except.ok (t.skip.ahead.isEmpty, t.skip) = _
    rw [h.skip_eq]
  refine .step hended (.step (isFatal_eq h.isFatal_eq) ?_)
  rw [Bool.not_true, Bool.and_false]
  exact runs_pure h

theorem follows_leftovers (h : Tracks 7 s t) (hdepth : t.depth = 0) (hfuel : fuel ≤ more) :
    Follows (Parser.leftovers input limit fuel) (Driver.leftovers input limit more) s t
      (fun f s' _ => Step 7 t f s') (Halted 9 t.calls) := by
  induction fuel generalizing s t more with
  | zero =>
    unfold Parser.leftovers
    rw [leftovers_eq]
    refine (follows_atEnd h).andThen fun b s₁ b' t₁ hended hend => ?_
    obtain ⟨rfl, rfl, -, hend⟩ := hend
    refine .isFatal hend.tracks.isFatal_eq ?_
    split
    next hnil =>
      rw [hnil]
      exact follows_pure hend
    next => exact .left rfl follows_fault
  | succ fuel ih =>
    obtain ⟨more, rfl⟩ := Nat.exists_eq_succ_of_ne_zero (Nat.ne_zero_of_lt hfuel)
    unfold Parser.leftovers
    rw [leftovers_eq]
    refine (follows_atEnd h).andThen fun b s₁ b' t₁ hended hend => ?_
    obtain ⟨rfl, rfl, -, hend⟩ := hend
    refine .isFatal hend.tracks.isFatal_eq ?_
    split
    next hnil =>
      rw [hnil]
      exact follows_pure hend
    next hword =>
      rw [Bool.eq_false_iff.2 hword]
      have hmore : s₁.words ≠ [] := by
        obtain ⟨rfl, -⟩ := reads_atEnd hended
        exact fun hnil => hword (List.isEmpty_iff.2 hnil)
      refine (follows_setAside hend.tracks hmore).andThen fun misplaced s₂ _ t₂ _ haside => ?_
      refine (follows_nextIn haside.tracks (by decide)).andThen fun b s₃ b' t₃ _ hlook => ?_
      obtain ⟨rfl, -, hlook⟩ := hlook
      have hbefore := (hend.after haside).stay hlook
      -- Reading goes on in the same way, whether a regex follows the word or not.
      have hrest {regex : Forest} {s₄ : ParseState} {t₄ : DriverState}
          (h₄ : Step 7 t₃ regex s₄ t₄) : Follows (do
            return misplaced ++ regex ++ (← Parser.leftovers input limit fuel))
          (Driver.leftovers input limit more) s₄ t₄ (fun f s' _ => Step 7 t f s')
          (Halted 9 t.calls) := by
        have hall := hbefore.append h₄
        have hmore₄ := ih h₄.tracks (hall.depth_eq.trans hdepth) (Nat.le_of_succ_le_succ hfuel)
        refine (hmore₄.map fun rest s₅ _ t₅ hrest => hall.append hrest).imp_halted ?_
        exact fun t₅ h₅ => h₅.behind hall.built
      split
      · have hroom : t₃.depth + limit = limit := by
          rw [hbefore.depth_eq, hdepth, Nat.zero_add]
        refine (follows_regex (hlook.tracks.mono (by decide)) hroom).bind ?_ ?_
        · exact fun _ _ _ _ _ h₄ => hrest h₄
        · exact fun _ t₄ h₄ => runs_leftovers (h₄.behind hbefore.built)
      · exact .left rfl (hrest (hlook.tracks.refl.mono (by decide)))

/-- No blanks are buffered when the root is finished, whether the limit has been hit or not. -/
def Roots (t : DriverState) (children : Forest) (t' : DriverState) : Prop :=
  t'.buffer = [] ∧ Built t.calls [.node .root children] t'.calls

theorem follows_root (h : Tracks 0 s t) (hbuffer : t.buffer = []) (hdepth : t.depth = 0) :
    Follows (Parser.root input limit) (Driver.root input limit) s t
      (fun tree s' _ t' => t'.isFatal = false ∧ t'.reports = s'.reports ∧
        ∃ children, tree = .node .root children ∧ Roots t children t')
      fun t' => t'.isFatal = true ∧ ∃ children, Roots t children t' := by
  refine .right (startNode_of_nil hbuffer) ?_
  refine (follows_atEnd h.push).andThen fun b s₁ b' t₁ _ hend => ?_
  obtain ⟨rfl, rfl, -, hend⟩ := hend
  -- The blanks at the end of the text close the root, after each way to it.
  have hclose {body : Forest} {s₂ : ParseState} {t₂ : DriverState}
      (h₂ : Step 7 (t.push (.start .root)) body s₂ t₂) : Follows (do
        return Tree.node .root (body ++ (← flush)))
      (do
        Driver.skip
        Driver.drain
        call .finish) s₂ t₂
      (fun tree s' _ t' => t'.isFatal = false ∧ t'.reports = s'.reports ∧
        ∃ children, tree = .node .root children ∧ Roots t children t')
      fun t' => t'.isFatal = true ∧ ∃ children, Roots t children t' := by
    have hdrained := h₂.append h₂.tracks.drained
    refine ⟨(), t₂.skip.drain.push .finish, rfl, ?_, ?_, _, rfl, rfl, hdrained.node.built⟩
    · exact hdrained.tracks.isFatal_eq
    · exact hdrained.tracks.reports_eq
  have hhalt {t₂ : DriverState} (h₂ : Halted 9 (t.push (.start .root)).calls t₂) : Runs (do
        Driver.skip
        Driver.drain
        call .finish) t₂
      fun _ t' => t'.isFatal = true ∧ ∃ children, Roots t children t' := by
    obtain ⟨f, hf⟩ := h₂.built
    have hroot := (hf.append (built_tokens t₂.skip.buffer)).node
    exact ⟨(), t₂.skip.drain.push .finish, rfl, h₂.isFatal_eq, _, rfl, hroot⟩
  split
  · refine (follows_report hend.tracks).andThen fun _ s₂ _ t₂ _ hreport => .left rfl ?_
    exact hclose ((hend.after hreport).mono (by decide))
  · have hroom : t₁.depth + limit = limit := by
      have hsame : t₁.depth = t.depth := hend.depth_eq
      omega
    refine (follows_regex (hend.tracks.mono (by decide)) hroom).bind ?_ ?_
    · intro first s₂ _ t₂ _ hfirst
      have hbefore := hend.after hfirst
      have hdepth₂ : t₂.depth = 0 := hbefore.depth_eq.trans hdepth
      refine .left rfl (.right rfl ?_)
      refine (follows_leftovers hfirst.tracks hdepth₂ hfirst.tracks.length_le).bind ?_ ?_
      · exact fun rest s₃ _ t₃ _ hrest => .left rfl (hclose (hbefore.append hrest))
      · exact fun _ t₃ h₃ => hhalt (h₃.behind hbefore.built)
    · intro _ t₂ h₂
      refine .step rfl ((runs_leftovers (h₂.behind hend.built)).bind ?_)
      exact fun _ t₃ h₃ => hhalt h₃

end Texts

end Parser

theorem Driver.run_of_root {text : String} {source : SourceId} {limit : Nat} {t : DriverState}
    (h : root ⟨source, text.utf8ByteSize⟩ limit (.ofTokens (tokens text)) = .ok ((), t))
    (hbuffer : t.buffer = []) : run text source limit = .ok t := by
  have hreading : (do
      root ⟨source, text.utf8ByteSize⟩ limit
      drain : Driver Unit) (.ofTokens (tokens text)) = .ok ((), t) := by
    show (root ⟨source, text.utf8ByteSize⟩ limit (.ofTokens (tokens text)) >>=
      fun p : Unit × DriverState => Except.ok ((), p.2.drain)) = _
    rw [h]
    exact congrArg (fun u => Except.ok ((), u)) (t.drain_of_nil hbuffer)
  simp only [run, hreading]

/-- The driver always finishes, whatever the text and the limit are: there is a look left whenever
it looks, a word ahead whenever it takes one, and a round left in each loop. Its calls build one
tree, so that each node that is started is finished once, also when the limit is hit, and each node
that is started at a checkpoint finds it valid. The reader answers that tree, or stops at the
limit. -/
theorem parse_driven (text : String) (source : SourceId) (limit : Nat) :
    ∃ t children, Driver.run text source limit = .ok t ∧
      Builds 0 t.calls [.node .root children] ∧
      BuilderCall.Balanced t.calls ∧ BuilderCall.ValidCheckpoints 0 t.calls ∧
      (t.isFatal = true ∧ parse text source limit = .error .nestingLimit ∨
        t.isFatal = false ∧ parse text source limit = .ok ⟨.node .root children, t.reports⟩) := by
  have hstart : Tracks 0 (.ofTokens (tokens text)) (.ofTokens (tokens text)) :=
    ⟨rfl, rfl, rfl, rfl, rfl, rfl, Nat.le_refl _⟩
  have hfollows := @Parser.follows_root _ _ ⟨source, text.utf8ByteSize⟩ limit hstart rfl rfl
  have hbuilds {t : DriverState} {children : Forest}
      (h : Parser.Roots (.ofTokens (tokens text)) children t) :
      Builds 0 t.calls [.node .root children] := by
    obtain ⟨cs, hcs, hbuilds⟩ := h.2
    rwa [hcs]
  unfold Parser.Follows at hfollows
  -- The reader has no third way to end: it runs into no fault.
  rcases Parser.root_cases text source limit with ⟨tree, s, hroot⟩ | hroot
  · rw [hroot] at hfollows
    obtain ⟨_, t, hrun, hfatal, hreports, children, rfl, hroots⟩ := hfollows
    have h := hbuilds hroots
    refine ⟨t, children, Driver.run_of_root hrun hroots.1, h, h.balanced, h.validCheckpoints, ?_⟩
    rw [hreports]
    exact .inr ⟨hfatal, parse_eq_ok_of_root hroot⟩
  · rw [hroot] at hfollows
    obtain ⟨_, t, hrun, hfatal, children, hroots⟩ := hfollows
    have h := hbuilds hroots
    refine ⟨t, children, Driver.run_of_root hrun hroots.1, h, h.balanced, h.validCheckpoints, ?_⟩
    exact .inl ⟨hfatal, parse_eq_error_of_root hroot⟩

/-- The limit is hit at the quantifier; the group and the root are finished all the same. -/
example : (Driver.run "(a*" ⟨0⟩ 1).toOption.map (fun t => (t.isFatal, t.calls)) =
    some (true, [.start .root, .checkpoint, .checkpoint, .checkpoint, .start .group,
      .token ⟨.parenOpen, 0, "("⟩, .checkpoint, .checkpoint, .checkpoint, .start .ident,
      .token ⟨.id, 1, "a"⟩, .finish, .finish, .finish]) := by
  decide +kernel

end CallChain
