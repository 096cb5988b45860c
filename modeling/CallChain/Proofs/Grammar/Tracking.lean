import CallChain.Proofs.Grammar.Driver
import CallChain.Proofs.Grammar.Runs

/-!
# Where the driver stands

The driver stands where the reader is (`Tracks`) and has built some trees on its way (`Step`),
perhaps behind a checkpoint (`Marked`). Where the reader has stopped at the limit, the driver stands
before the word where that happened (`Halted`): it takes no more words, and leaves the open nodes.

* `Runs`: a run of the driver without a mishap.
-/

namespace CallChain

/-! ### Blanks and words -/

theorem splitWords_eq (ts : List Token) :
    splitWords ts = (ts.takeWhile (·.kind.isTrivia),
      (splitWords (ts.dropWhile (·.kind.isTrivia))).2) := by
  induction ts with
  | nil => rfl
  | cons token ts ih =>
    by_cases htrivia : token.kind.isTrivia = true
    · simp only [splitWords, ih, List.takeWhile, List.dropWhile, htrivia, if_true]
    · simp [splitWords, List.takeWhile, List.dropWhile, htrivia]

/-- Behind blanks there is the end of the text, or a word. -/
theorem dropWhile_cases (ts : List Token) :
    (ts.dropWhile (·.kind.isTrivia) = [] ∧ (splitWords ts).2 = []) ∨
      ∃ token rest, ts.dropWhile (·.kind.isTrivia) = token :: rest ∧
        token.kind.isTrivia = false ∧
        (splitWords ts).2 = ⟨token, (splitWords rest).1⟩ :: (splitWords rest).2 := by
  cases hahead : ts.dropWhile (·.kind.isTrivia) with
  | nil =>
    refine .inl ⟨rfl, ?_⟩
    rw [splitWords_eq, hahead]
    rfl
  | cons token rest =>
    have hword : token.kind.isTrivia = false := by
      have hne : ts.dropWhile (·.kind.isTrivia) ≠ [] := by
        rw [hahead]
        exact List.cons_ne_nil token rest
      have hhead := List.head_dropWhile_not (fun u : Token => u.kind.isTrivia) hne
      simpa only [hahead, List.head_cons] using hhead
    refine .inr ⟨token, rest, rfl, hword, ?_⟩
    rw [splitWords_eq, hahead, splitWords]
    simp [hword]

/-! ### States that are abreast -/

namespace DriverState

variable {t : DriverState}

theorem skip_eq_self (h : t.ahead.takeWhile (·.kind.isTrivia) = []) : t.skip = t := by
  have hahead := @List.takeWhile_append_dropWhile _ (·.kind.isTrivia) t.ahead
  rw [h, List.nil_append] at hahead
  rw [skip, hahead, h, List.append_nil]

theorem skip_of_cons {token : Token} {rest : List Token} (hahead : t.ahead = token :: rest)
    (hword : token.kind.isTrivia = false) : t.skip = t :=
  skip_eq_self (by rw [hahead, List.takeWhile_cons_of_neg (by simp [hword])])

theorem drain_of_nil (t : DriverState) (hbuffer : t.buffer = []) : t.drain = t := by
  rw [drain, hbuffer, List.map_nil, List.append_nil, ← hbuffer]

theorem skip_skip (t : DriverState) : t.skip.skip = t.skip := by
  rcases dropWhile_cases t.ahead with ⟨hnil, -⟩ | ⟨token, rest, hcons, hword, -⟩
  · exact skip_eq_self (by rw [skip, hnil]; rfl)
  · exact skip_of_cons hcons hword

end DriverState

/-- The driver is where the reader is and has made the same reports. All looks but `k` are left. -/
structure Tracks (k : Nat) (s : ParseState) (t : DriverState) : Prop where
  words_eq : (splitWords t.ahead).2 = s.ahead
  blanks_eq : t.buffer ++ (splitWords t.ahead).1 = s.pending
  fuel_eq : t.fuel = s.looks
  lastReport_eq : t.lastReport = s.lastReport
  reports_eq : t.reports = s.reports
  isFatal_eq : t.isFatal = false
  fuel_ge : lookLimit ≤ t.fuel + k

namespace Tracks

variable {k k' : Nat} {s : ParseState} {t : DriverState}

theorem mono (h : Tracks k s t) (hk : k ≤ k') : Tracks k' s t :=
  { h with fuel_ge := Nat.le_trans h.fuel_ge (Nat.add_le_add_left hk _) }

theorem skip (h : Tracks k s t) : Tracks k s t.skip where
  words_eq := by
    rw [← h.words_eq, splitWords_eq t.ahead]
    rfl
  blanks_eq := by
    have hblanks : t.buffer ++ t.ahead.takeWhile (·.kind.isTrivia) = s.pending := by
      rw [← h.blanks_eq, splitWords_eq t.ahead]
    rcases dropWhile_cases t.ahead with ⟨hnil, -⟩ | ⟨token, rest, hcons, hword, -⟩
    · simpa [DriverState.skip, hnil, splitWords] using hblanks
    · simpa [DriverState.skip, hcons, splitWords, hword] using hblanks
  fuel_eq := h.fuel_eq
  lastReport_eq := h.lastReport_eq
  reports_eq := h.reports_eq
  isFatal_eq := h.isFatal_eq
  fuel_ge := h.fuel_ge

theorem skip_buffer (h : Tracks k s t) : t.skip.buffer = s.pending := by
  rw [← h.blanks_eq, splitWords_eq t.ahead]
  rfl

/-- Behind the blanks there is the end of the text for both, or the same word. -/
theorem skip_cases (h : Tracks k s t) :
    (t.skip.ahead = [] ∧ s.ahead = []) ∨
      ∃ token rest, t.skip.ahead = token :: rest ∧ token.kind.isTrivia = false ∧
        s.ahead = ⟨token, (splitWords rest).1⟩ :: (splitWords rest).2 := by
  rw [← h.words_eq]
  exact dropWhile_cases t.ahead

theorem head?_eq (h : Tracks k s t) : t.skip.ahead.head? = s.ahead.head?.map (·.token) := by
  rcases h.skip_cases with ⟨hnil, hend⟩ | ⟨token, rest, hcons, -, hahead⟩
  · rw [hnil, hend]
    rfl
  · rw [hcons, hahead]
    rfl

theorem isEmpty_eq (h : Tracks k s t) : t.skip.ahead.isEmpty = s.ahead.isEmpty := by
  rcases h.skip_cases with ⟨hnil, hend⟩ | ⟨token, rest, hcons, -, hahead⟩
  · rw [hnil, hend]
    rfl
  · rw [hcons, hahead]
    rfl

/-- Where no blanks are pending, none is next. -/
theorem skip_eq (h : Tracks k s t) (hpending : s.pending = []) : t.skip = t := by
  have hblanks := h.blanks_eq
  rw [hpending] at hblanks
  have hnone := (List.append_eq_nil_iff.1 hblanks).2
  rw [splitWords_eq] at hnone
  exact DriverState.skip_eq_self hnone

theorem two_le_fuel (h : Tracks k s t) (hk : k + 2 ≤ lookLimit) : 2 ≤ t.fuel := by
  have := h.fuel_ge
  omega

/-- A look is counted on both sides. -/
theorem spend (h : Tracks k s t) (hk : k + 2 ≤ lookLimit) :
    Tracks (k + 1) { s with looks := s.looks - 1 } { t.skip with fuel := t.fuel - 1 } :=
  { h.skip with
    fuel_eq := congrArg (· - 1) h.fuel_eq
    fuel_ge := by
      have := h.two_le_fuel hk
      have := h.fuel_ge
      show lookLimit ≤ t.fuel - 1 + (k + 1)
      omega }

theorem length_le (h : Tracks k s t) : s.ahead.length ≤ t.ahead.length := by
  have hwords := congrArg List.length (splitWords_spec t.ahead).1
  rw [h.words_eq, List.length_map] at hwords
  rw [hwords]
  exact List.length_filter_le ..

theorem buffer_eq_nil (h : Tracks k s t) (hpending : s.pending = []) : t.buffer = [] := by
  have hblanks := h.blanks_eq
  rw [hpending] at hblanks
  exact (List.append_eq_nil_iff.1 hblanks).1

theorem entered (h : Tracks k s t) : Tracks 0 { s with looks := lookLimit } t.entered :=
  { h with
    fuel_eq := rfl
    fuel_ge := Nat.le_refl _ }

theorem left (h : Tracks k s t) : Tracks 0 { s with looks := lookLimit } t.left :=
  { h with
    fuel_eq := rfl
    fuel_ge := Nat.le_refl _ }

theorem push {c : BuilderCall} (h : Tracks k s t) : Tracks k s (t.push c) := { h with }

end Tracks

/-! ### Steps -/

/-- From `t` the driver has come to where the reader is, and has built some trees on its way. -/
structure Step (k : Nat) (t : DriverState) (f : Forest) (s' : ParseState) (t' : DriverState) :
    Prop where
  tracks : Tracks k s' t'
  depth_eq : t'.depth = t.depth
  built : Built t.calls f t'.calls

/-- From `t` the driver has come to where the reader is, and has set a checkpoint on its way. The
calls before that are `a` and have built `f`, those since then have built `g`. -/
structure Marked (k : Nat) (t : DriverState) (f : Forest) (a : List BuilderCall) (g : Forest)
    (s' : ParseState) (t' : DriverState) : Prop where
  tracks : Tracks k s' t'
  depth_eq : t'.depth = t.depth
  built : Built t.calls f a
  since : Since a g t'.calls

/-- The kinds of the words where the limit may be hit. -/
def KindSet.nesting : KindSet := ⟨[.parenOpen, .star, .plus, .question]⟩

/-- The driver has hit the limit and has built some trees behind the calls `a`. All looks but `k`
are left. -/
structure Halted (k : Nat) (a : List BuilderCall) (t : DriverState) : Prop where
  isFatal_eq : t.isFatal = true
  next : ∃ token rest, t.ahead = token :: rest ∧ KindSet.nesting.contains token.kind = true
  fuel_ge : lookLimit ≤ t.fuel + k
  built : ∃ f, Built a f t.calls

section Steps

variable {k k' : Nat} {a : List BuilderCall} {f g g' : Forest} {s s' : ParseState}
  {t t₁ t' : DriverState} {kind : SyntaxKind}

namespace Step

theorem mono (h : Step k t f s' t') (hk : k ≤ k') : Step k' t f s' t' :=
  ⟨h.tracks.mono hk, h.depth_eq, h.built⟩

theorem append (h : Step k t f s t₁) (h' : Step k' t₁ g s' t') : Step k' t (f ++ g) s' t' :=
  ⟨h'.tracks, h'.depth_eq.trans h.depth_eq, h.built.append h'.built⟩

/-- A step that builds nothing, before others. -/
theorem after (h : Step k t [] s t₁) (h' : Step k' t₁ f s' t') : Step k' t f s' t' := h.append h'

/-- A step that builds nothing, behind others. -/
theorem stay (h : Step k t f s t₁) (h' : Step k' t₁ [] s' t') : Step k' t f s' t' := by
  have hboth := h.append h'
  rwa [List.append_nil] at hboth

/-- A node that has been started before. -/
theorem node (h : Step k (t.push (.start kind)) f s' t') :
    Step k t [.node kind f] s' (t'.push .finish) :=
  ⟨h.tracks.push, h.depth_eq, h.built.node⟩

end Step

namespace Marked

theorem append (h : Marked k t f a g s t₁) (h' : Step k' t₁ g' s' t') :
    Marked k' t f a (g ++ g') s' t' :=
  ⟨h'.tracks, h'.depth_eq.trans h.depth_eq, h.built, h.since.append h'.built⟩

theorem stay (h : Marked k t f a g s t₁) (h' : Step k' t₁ [] s' t') : Marked k' t f a g s' t' := by
  have hboth := h.append h'
  rwa [List.append_nil] at hboth

theorem step (h : Marked k t f a g s' t') : Step k t (f ++ g) s' t' :=
  ⟨h.tracks, h.depth_eq, h.built.append h.since.built⟩

theorem wrap (h : Marked k t f a g s t₁)
    (h' : Step k' (t₁.push (.startAt a.length kind)) g' s' t') :
    Marked k' t f a [.node kind (g ++ g')] s' (t'.push .finish) :=
  ⟨h'.tracks.push, h'.depth_eq.trans h.depth_eq, h.built, h.since.wrap h'.built⟩

theorem entered (h : Marked k t f a g s t') :
    Marked 0 t.entered f a g { s with looks := lookLimit } t'.entered :=
  ⟨h.tracks.entered, congrArg (· + 1) h.depth_eq, h.built, h.since⟩

theorem left (h : Marked k t.entered f a g s t') :
    Marked 0 t f a g { s with looks := lookLimit } t'.left :=
  ⟨h.tracks.left, congrArg (· - 1) h.depth_eq, h.built, h.since⟩

theorem mono (h : Marked k t f a g s' t') (hk : k ≤ k') : Marked k' t f a g s' t' :=
  { h with tracks := h.tracks.mono hk }

end Marked

/-- The limit is hit at the next word. -/
theorem Tracks.halted (h : Tracks k s t) (hskip : t.skip = t) (hnext : s.next = some kind)
    (hkind : KindSet.nesting.contains kind = true) (hbuilt : Built a f t.calls) :
    Halted k a { t with isFatal := true } where
  isFatal_eq := rfl
  next := by
    have hcases := h.skip_cases
    rw [hskip] at hcases
    rcases hcases with ⟨-, hend⟩ | ⟨token, rest, hcons, -, hahead⟩
    · rw [ParseState.next, ParseState.words, hend] at hnext
      cases hnext
    · rw [ParseState.next, ParseState.words, hahead] at hnext
      cases hnext
      exact ⟨token, rest, hcons, hkind⟩
  fuel_ge := h.fuel_ge
  built := ⟨f, hbuilt⟩

theorem Tracks.refl (h : Tracks k s t) : Step k t [] s t := ⟨h, rfl, .refl⟩

/-- The pending blanks are placed. -/
theorem Tracks.drained (h : Tracks k s t) :
    Step k t (s.pending.map .leaf) { s with pending := [] } t.skip.drain where
  tracks :=
    { h.skip with
      blanks_eq := by
        have hblanks := h.skip.blanks_eq
        rwa [h.skip_buffer, List.append_right_eq_self] at hblanks }
  depth_eq := rfl
  built := by
    show Built t.calls _ (t.calls ++ t.skip.buffer.map .token)
    rw [h.skip_buffer]
    exact built_tokens s.pending

namespace Halted

theorem mono (h : Halted k a t) (hk : k ≤ k') : Halted k' a t :=
  { h with fuel_ge := Nat.le_trans h.fuel_ge (Nat.add_le_add_left hk _) }

/-- What was built before the limit was hit. -/
theorem behind {b : List BuilderCall} (h : Halted k b t) (hbuilt : Built a f b) :
    Halted k a t :=
  have ⟨_, hg⟩ := h.built
  { h with built := ⟨_, hbuilt.append hg⟩ }

/-- The limit has been hit inside of a node. -/
theorem node (h : Halted k (a ++ [.start kind]) t) : Halted k a (t.push .finish) :=
  have ⟨_, hf⟩ := h.built
  { h with built := ⟨_, hf.node⟩ }

theorem left (h : Halted k a t) : Halted 0 a t.left := { h with fuel_ge := Nat.le_refl _ }

/-- The limit has been hit inside of a node that was started at a checkpoint. -/
theorem wrap (h : Halted k (t₁.calls ++ [.startAt a.length kind]) t')
    (hmarked : Marked k' t f a g s t₁) : Halted k t.calls (t'.push .finish) :=
  have ⟨_, hg⟩ := h.built
  { h with built := ⟨_, hmarked.built.append (hmarked.since.wrap hg).built⟩ }

theorem skip_eq (h : Halted k a t) : t.skip = t := by
  obtain ⟨token, rest, hahead, hkind⟩ := h.next
  refine DriverState.skip_of_cons hahead ?_
  -- the limit is hit at an opening parenthesis or at a quantifier, never at a blank
  revert hkind
  cases token.kind <;> decide

end Halted

end Steps

/-! ### Runs of the driver -/

namespace Driver

variable {β γ : Type} {M : Driver β} {G : β → Driver γ} {t t' : DriverState} {b : β}
  {Q : β → DriverState → Prop} {Q' : γ → DriverState → Prop}

/-- A run of `M` ends without a mishap, and its end satisfies `Q`. -/
def Runs (M : Driver β) (t : DriverState) (Q : β → DriverState → Prop) : Prop :=
  ∃ b t', M t = .ok (b, t') ∧ Q b t'

/-- A step of which the end is known. -/
theorem Runs.step (hrun : M t = .ok (b, t')) (h : Runs (G b) t' Q') : Runs (M >>= G) t Q' := by
  obtain ⟨c, t'', hrun', hQ'⟩ := h
  refine ⟨c, t'', ?_, hQ'⟩
  show (M t >>= fun p => G p.1 p.2) = _
  rw [hrun]
  exact hrun'

theorem Runs.bind (hM : Runs M t Q) (hG : ∀ b t', Q b t' → Runs (G b) t' Q') :
    Runs (M >>= G) t Q' := by
  obtain ⟨b, t', hrun, hQ⟩ := hM
  exact .step hrun (hG b t' hQ)

theorem Runs.mono {R : β → DriverState → Prop} (h : Runs M t Q) (hR : ∀ b t', Q b t' → R b t') :
    Runs M t R := by
  obtain ⟨b, t', hrun, hQ⟩ := h
  exact ⟨b, t', hrun, hR b t' hQ⟩

theorem runs_pure (h : Q b t) : Runs (pure b) t Q := ⟨b, t, rfl, h⟩

variable {test : SyntaxKind → Bool} {token : Token} {rest : List Token} {k : Nat}
  {a : List BuilderCall} {kind : SyntaxKind}

theorem current_of_cons (hahead : t.skip.ahead = token :: rest) (hfuel : 2 ≤ t.fuel) :
    current t = .ok (token.kind, { t.skip with fuel := t.fuel - 1 }) := by
  have hspend : spend t.skip = .ok ((), { t.skip with fuel := t.fuel - 1 }) :=
    if_neg (Nat.not_le.2 hfuel)
  show (spend t.skip >>= fun p : Unit × DriverState => Except.ok
    ((p.2.ahead.head?.map (·.kind)).getD .error, p.2)) = _
  rw [hspend]
  show Except.ok ((t.skip.ahead.head?.map (·.kind)).getD .error, _) = _
  rw [hahead]
  rfl

theorem currently_of_cons (hahead : t.skip.ahead = token :: rest) (hfuel : 2 ≤ t.fuel) :
    currently test t = .ok (test token.kind, { t.skip with fuel := t.fuel - 1 }) := by
  have hcurrent : current t.skip = .ok (token.kind, { t.skip with fuel := t.fuel - 1 }) := by
    have hrun := @current_of_cons t.skip token rest (by rwa [DriverState.skip_skip]) hfuel
    rwa [DriverState.skip_skip] at hrun
  show (if t.skip.ahead.isEmpty = true then pure false else do return test (← current) :
    Driver Bool) t.skip = _
  rw [hahead, List.isEmpty_cons, if_neg Bool.false_ne_true]
  show (current t.skip >>= fun p : SyntaxKind × DriverState => Except.ok (test p.1, p.2)) = _
  rw [hcurrent]
  rfl

theorem currently_of_nil (hahead : t.skip.ahead = []) :
    currently test t = .ok (false, t.skip) := by
  show (if t.skip.ahead.isEmpty = true then pure false else do return test (← current) :
    Driver Bool) t.skip = _
  rw [hahead, List.isEmpty_nil, if_pos rfl]
  rfl

theorem bump_of_cons (hahead : t.skip.ahead = token :: rest) :
    bump t = .ok ((), { t.skip with
      ahead := rest
      buffer := []
      fuel := lookLimit
      calls := t.calls ++ t.skip.buffer.map .token ++ [.token token] }) := by
  show take t.skip.ahead t.skip = _
  rw [hahead]
  rfl

theorem isFatal_eq {b : Bool} (h : t.isFatal = b) : isFatal t = .ok (b, t) := by
  show Except.ok (t.isFatal, t) = _
  rw [h]

theorem startNode_of_nil (hbuffer : t.buffer = []) :
    startNode kind t = .ok ((), t.push (.start kind)) := by
  show Except.ok ((), t.drain.push (.start kind)) = _
  rw [t.drain_of_nil hbuffer]

theorem enter_of_le {limit : Nat} (h : limit ≤ t.depth) :
    enter limit t = .ok (false, { t with isFatal := true }) := if_pos h

theorem enter_of_lt {limit : Nat} (h : t.depth < limit) :
    enter limit t = .ok (true, t.entered) := if_neg (Nat.not_le.2 h)

/-! ### Unwinding -/

/-- A look at the word where the limit has been hit. -/
theorem runs_currently (h : Halted k a t) (hk : k + 2 ≤ lookLimit) : Runs (currently test) t
    fun b t' => (∃ kind, KindSet.nesting.contains kind = true ∧ b = test kind) ∧
      Halted (k + 1) a t' := by
  obtain ⟨token, rest, hahead, hkind⟩ := h.next
  have hfuel := h.fuel_ge
  have hskip := h.skip_eq
  have hrun := @currently_of_cons t test token rest (by rwa [hskip]) (by omega)
  rw [hskip] at hrun
  have hleft : lookLimit ≤ t.fuel - 1 + (k + 1) := by omega
  refine ⟨_, _, hrun, ⟨token.kind, hkind, rfl⟩, ?_⟩
  exact { h with fuel_ge := hleft }

theorem runs_eat (h : Halted k a t) (hk : k + 2 ≤ lookLimit)
    (hkind : KindSet.nesting.contains kind = false) :
    Runs (eat kind) t fun b t' => b = false ∧ Halted (k + 1) a t' := by
  refine (runs_currently h hk).bind fun b t' hb => ?_
  obtain ⟨⟨other, hother, rfl⟩, h'⟩ := hb
  have hne : other ≠ kind := by
    rintro rfl
    rw [hkind] at hother
    cases hother
  rw [decide_eq_false hne]
  exact runs_pure ⟨rfl, h'⟩

/-- Behind the limit no loop goes on. -/
theorem runs_loop {N N' : Driver β} {Q : β → DriverState → Prop} (h : Halted k a t)
    (hk : k + 2 ≤ lookLimit) (hstop : ∀ t', Halted (k + 1) a t' → Runs N' t' Q) : Runs (do
      if (← currently test) && !(← isFatal) then N else N') t Q := by
  refine (runs_currently h hk).bind fun b t₁ hlook => ?_
  refine .step (isFatal_eq hlook.2.isFatal_eq) ?_
  rw [Bool.not_true, Bool.and_false, if_neg Bool.false_ne_true]
  exact hstop t₁ hlook.2

end Driver

end CallChain
