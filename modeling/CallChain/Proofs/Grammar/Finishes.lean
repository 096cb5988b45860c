import CallChain.Proofs.Grammar.Productions

/-!
# The reader finishes

Neither guard of the reader ever acts, so the only text without a tree is one that is nested deeper
than the limit. A production looks at the next word a few times before it takes one, and a loop goes
round once for each word at most: `Within n k` says that at most `n` words are ahead and that they
have been looked at `k` times, and each production keeps such a bound.

A group and each quantifier take a word and one level of room. So a text with no more words than the
limit has levels has a tree.

* `Finishes.bind`: one step after another.
* `finishes_regex`, `finishes_leftovers`: the productions.
* `parse_cases`, `exists_parse_eq_ok`: whole texts.
-/

namespace CallChain

open ParseState

/-- At most `n` words are ahead, and at most `k` looks have been spent on them. -/
structure ParseState.Within (n k : Nat) (s : ParseState) : Prop where
  words : s.words.length ≤ n
  looks : lookLimit ≤ s.looks + k

namespace ParseState.Within

variable {s s' : ParseState} {n k k' : Nat}

theorem mono (h : s.Within n k) (hk : k ≤ k') : s.Within n k' where
  words := h.words
  looks := by
    have := h.looks
    omega

theorem of_le {n' : Nat} (h : s.Within n k) (hn : n ≤ n') : s.Within n' k :=
  ⟨Nat.le_trans h.words hn, h.looks⟩

/-- The number of words itself is a bound. -/
theorem exact (h : s.Within n k) : s.Within s.ahead.length k ∧ s.ahead.length ≤ n := by
  have hlength : s.words.length = s.ahead.length := List.length_map _
  exact ⟨⟨Nat.le_of_eq hlength, h.looks⟩, hlength ▸ h.words⟩

/-- Where a word is ahead, the bound counts it. -/
theorem exists_succ (h : s.Within n k) (hne : s.words ≠ []) : ∃ m, n = m + 1 := by
  have hpos := List.length_pos_iff.2 hne
  have hle := h.words
  exact ⟨n - 1, by omega⟩

end ParseState.Within

namespace Parser

variable {α β : Type} {limited : Prop} {m : Parser α} {s s' : ParseState}
  {post : α → ParseState → Prop} {last : β → ParseState → Prop} {n k : Nat} {input : Input}
  {room fuel : Nat} {inside : Option (Parser Forest)}

/-- A step ends with what `post` says, or at the nesting limit, which `limited` has to allow. It
never ends with a fault. -/
def Finishes (limited : Prop) (m : Parser α) (s : ParseState) (post : α → ParseState → Prop) :
    Prop :=
  match m s with
  | .ok (a, s') => post a s'
  | .error .nestingLimit => limited
  | .error (.fault _) => False

/-! ### Composing steps -/

theorem finishes_of_eq {a : α} (h : m s = .ok (a, s')) (hpost : post a s') :
    Finishes limited m s post := by
  unfold Finishes
  rw [h]
  exact hpost

/-- What follows a step may use how the step was read. -/
theorem Finishes.bind {g : α → Parser β} (hm : Finishes limited m s post)
    (hg : ∀ a s', Reads m s a s' → post a s' → Finishes limited (g a) s' last) :
    Finishes limited (m >>= g) s last := by
  unfold Finishes at hm ⊢
  cases hstep : m s with
  | ok p =>
    rw [hstep] at hm
    rw [bind_of_reads hstep]
    exact hg p.1 p.2 hstep hm
  | error halt =>
    rw [hstep] at hm
    rw [bind_of_error hstep]
    cases halt with
    | nestingLimit => exact hm
    | fault => exact hm.elim

theorem Finishes.mono {post' : α → ParseState → Prop} (h : Finishes limited m s post)
    (himp : ∀ a s', post a s' → post' a s') : Finishes limited m s post' := by
  unfold Finishes at h ⊢
  split at h
  next heq => exact himp _ _ h
  next heq => exact h
  next heq => exact h.elim

theorem finishes_pure {a : α} (h : post a s) : Finishes limited (pure a) s post :=
  finishes_of_eq rfl h

theorem finishes_nestingLimit (h : limited) :
    Finishes limited (throw .nestingLimit : Parser α) s post := h

theorem finishes_get (h : s.Within n k) :
    Finishes limited (get : Parser ParseState) s fun t s' => t = s' ∧ s'.Within n k :=
  finishes_of_eq rfl ⟨rfl, h⟩

/-! ### Looking -/

/-- A look is spent, also at the end of the text. -/
theorem finishes_look (h : s.Within n k) (hk : k < lookLimit) :
    Finishes limited look s fun _ s' => s'.Within n (k + 1) := by
  have hlooks := h.looks
  unfold Finishes look
  cases hahead : s.ahead with
  | nil => exact h.mono (Nat.le_succ k)
  | cons word ahead =>
    cases hleft : s.looks with
    | zero => omega
    | succ looks =>
      have hwords : s.words = (word :: ahead).map (·.token) := by rw [ParseState.words, hahead]
      refine ⟨?_, ?_⟩
      · show ((word :: ahead).map (·.token)).length ≤ n
        rw [← hwords]
        exact h.words
      · show lookLimit ≤ looks + (k + 1)
        omega

theorem finishes_nextIs {kind : SyntaxKind} (h : s.Within n k) (hk : k < lookLimit) :
    Finishes limited (nextIs kind) s fun _ s' => s'.Within n (k + 1) :=
  (finishes_look h hk).bind fun _ _ _ h' => finishes_pure h'

theorem finishes_nextIn {kinds : KindSet} (h : s.Within n k) (hk : k < lookLimit) :
    Finishes limited (nextIn kinds) s fun _ s' => s'.Within n (k + 1) :=
  (finishes_look h hk).bind fun _ _ _ h' => finishes_pure h'

theorem finishes_atEnd (h : s.Within n k) :
    Finishes limited atEnd s fun _ s' => s'.Within n k := finishes_of_eq rfl h

theorem finishes_nextSpan (h : s.Within n k) :
    Finishes limited (nextSpan input) s fun _ s' => s'.Within n k := finishes_of_eq rfl h

theorem finishes_report {kind : DiagnosticKind} {related : List Related} (h : s.Within n k) :
    Finishes limited (report input kind related) s fun _ s' => s'.Within n k := by
  refine finishes_of_eq rfl ?_
  -- a report that is made changes the reports alone
  dsimp only
  split
  · exact h
  · exact ⟨h.words, h.looks⟩

/-- A report that is made on a condition, before the rest of a production. -/
theorem finishes_reportIf {c : Prop} [Decidable c] {kind : DiagnosticKind}
    {related : List Related} {g : Unit → Parser α} (h : s.Within n k)
    (hg : ∀ s', s'.Within n k → Finishes limited (g ()) s' post) :
    Finishes limited (if c then report input kind related >>= g else g ()) s post := by
  split
  · exact (finishes_report h).bind fun _ s' _ h' => hg s' h'
  · exact hg s h

/-! ### Taking -/

theorem finishes_refill (h : s.Within n k) :
    Finishes limited refill s fun _ s' => s'.Within n 0 :=
  finishes_of_eq rfl ⟨h.words, Nat.le_refl _⟩

theorem finishes_flush (h : s.Within n k) :
    Finishes limited flush s fun _ s' => s'.Within n k :=
  finishes_of_eq rfl ⟨h.words, h.looks⟩

/-- Taking a word allows the full number of looks again. -/
theorem finishes_bump (h : s.Within (n + 1) k) (hne : s.words ≠ []) :
    Finishes limited bump s fun _ s' => s'.Within n 0 := by
  have hwords := h.words
  unfold Finishes bump
  cases hahead : s.ahead with
  | nil =>
    rw [ParseState.words, hahead] at hne
    exact hne rfl
  | cons word ahead =>
    rw [ParseState.words, hahead, List.map_cons, List.length_cons] at hwords
    exact ⟨Nat.le_of_succ_le_succ hwords, Nat.le_refl _⟩

/-- A look that finds no word of the kind, or a word that is taken. -/
theorem finishes_eat? {kind : SyntaxKind} (h : s.Within n k) (hk : k < lookLimit) :
    Finishes limited (eat? kind) s fun o s' =>
      o = none ∧ s'.Within n (k + 1) ∨ ∃ f j, o = some f ∧ n = j + 1 ∧ s'.Within j 0 := by
  refine (finishes_nextIs h hk).bind fun b s₁ hb h₁ => ?_
  obtain ⟨rfl, htakes⟩ := reads_nextIs hb
  split
  next hkind =>
    have hnext : s₁.next = some kind := by
      rw [htakes.toMoves.next_eq]
      exact of_decide_eq_true hkind
    obtain ⟨j, rfl⟩ := h₁.exists_succ (words_ne_nil_of_next hnext)
    refine (finishes_bump h₁ (words_ne_nil_of_next hnext)).bind fun f s₂ _ h₂ => ?_
    exact finishes_pure (.inr ⟨f, j, rfl, rfl, h₂⟩)
  next => exact finishes_pure (.inl ⟨rfl, h₁⟩)

/-- What is certain behind a word that may have been taken. -/
theorem finishes_eat?_within {kind : SyntaxKind} (h : s.Within n k) (hk : k < lookLimit) :
    Finishes limited (eat? kind) s fun _ s' => s'.Within n (k + 1) := by
  refine (finishes_eat? h hk).mono fun o s' hpost => ?_
  rcases hpost with ⟨-, h'⟩ | ⟨f, j, -, rfl, h'⟩
  · exact h'
  · exact (h'.of_le (Nat.le_succ j)).mono (Nat.zero_le _)

/-! ### Atoms -/

theorem finishes_leaf {kind : SyntaxKind} (h : s.Within (n + 1) k) (hne : s.words ≠ []) :
    Finishes limited (leaf kind) s fun _ s' => s'.Within n 0 :=
  (finishes_bump h hne).bind fun _ _ _ h' => finishes_pure h'

theorem finishes_reference (h : s.Within (n + 1) k) (hne : s.words ≠ []) :
    Finishes limited (reference input) s fun _ s' => s'.Within n 2 := by
  refine (finishes_nextSpan h).bind fun opening s₁ hspan h₁ => ?_
  have hwords : s₁.words ≠ [] := by
    have heq := (reads_nextSpan hspan).words_eq
    rwa [heq] at hne
  refine (finishes_bump h₁ hwords).bind fun bracket s₂ _ h₂ => ?_
  refine (finishes_eat?_within h₂ (by decide)).bind fun name s₃ _ h₃ => ?_
  refine finishes_reportIf h₃ fun s₄ h₄ => ?_
  refine (finishes_eat?_within h₄ (by decide)).bind fun closing s₅ _ h₅ => ?_
  exact finishes_reportIf h₅ fun s₆ h₆ => finishes_pure h₆

/-- With room left, what is inside of a group is read and leaves no more words. The looks that have
been spent behind it are those of the last productions, which end at the same word. -/
def InsideFinishes (limited : Prop) (room : Nat) : Option (Parser Forest) → Prop
  | none => room = 0
  | some reader => ∀ n s, (limited ∨ n < room) → s.Within n 4 →
      Finishes limited reader s fun _ s' => s'.Within n 7

section Inside

variable (hinside : InsideFinishes limited room inside)

include hinside

theorem finishes_group (hroom : limited ∨ n < room) (h : s.Within (n + 1) k) (hne : s.words ≠ []) :
    Finishes limited (group input inside) s fun _ s' => s'.Within n 0 := by
  unfold group
  split
  next =>
    -- without room there is no inside
    have hnone : room = 0 := hinside
    apply finishes_nestingLimit
    rcases hroom with hlimited | hlt
    · exact hlimited
    · omega
  next reader =>
    refine (finishes_refill h).bind fun _ s₁ hrefill h₁ => ?_
    refine (finishes_nextSpan h₁).bind fun opening s₂ hspan h₂ => ?_
    have hwords : s₂.words ≠ [] := by
      have heq := ((reads_refill hrefill).after (reads_nextSpan hspan)).words_eq
      rwa [heq] at hne
    refine (finishes_bump h₂ hwords).bind fun bracket s₃ _ h₃ => ?_
    refine (finishes_nextIs h₃ (by decide)).bind fun closed s₄ _ h₄ => ?_
    refine (finishes_atEnd h₄).bind fun ended s₅ _ h₅ => ?_
    -- The three ways to the body meet again behind it.
    have hrest (body : Forest) (t : ParseState) (ht : t.Within n 7) : Finishes limited (do
        let closing ← eat? .parenClose
        if closing.isNone then
          report input .unclosedGroup [⟨"group started here", opening⟩]
        refill
        return [Tree.node .group (bracket ++ body ++ closing.getD [])]) t
          fun _ s' => s'.Within n 0 := by
      refine (finishes_eat?_within ht (by decide)).bind fun closing t₁ _ ht₁ => ?_
      refine finishes_reportIf ht₁ fun t₂ ht₂ => ?_
      exact (finishes_refill ht₂).bind fun _ t₃ _ ht₃ => finishes_pure ht₃
    have hempty (t : ParseState) (ht : t.Within n 1) :
        Finishes limited (pure ([] : Forest)) t fun _ s' => s'.Within n 7 :=
      finishes_pure (ht.mono (by decide))
    split
    · refine (finishes_report h₅).bind fun _ s₆ _ h₆ => ?_
      exact (hempty s₆ h₆).bind fun body t _ ht => hrest body t ht
    · split
      · exact (hempty s₅ h₅).bind fun body t _ ht => hrest body t ht
      · refine (hinside n s₅ hroom (h₅.mono (by decide))).bind fun body t _ ht => ?_
        exact hrest body t ht

/-- Where an atom is ahead, a word is taken. -/
theorem finishes_atomic (hroom : limited ∨ n < room) (h : s.Within (n + 1) k) (hk : k < lookLimit)
    (hnext : s.next.any KindSet.atomFirst.contains = true) :
    Finishes limited (atomic input inside) s fun _ s' => s'.Within n 2 := by
  refine (finishes_look h hk).bind fun next s₁ hlook h₁ => ?_
  obtain ⟨rfl, htakes⟩ := reads_look hlook
  have hne : s₁.words ≠ [] := by
    have heq := htakes.words_eq
    rw [List.nil_append] at heq
    rw [← heq]
    exact words_ne_nil_of_any hnext
  split
  next =>
    exact (finishes_group hinside hroom h₁ hne).mono fun _ _ h' => h'.mono (by decide)
  next => exact finishes_reference h₁ hne
  next => exact (finishes_leaf h₁ hne).mono fun _ _ h' => h'.mono (by decide)
  next kind hgroup hreference hident heq =>
    split
    next => exact (finishes_leaf h₁ hne).mono fun _ _ h' => h'.mono (by decide)
    next hanchor =>
      -- no other kind begins an atom
      rw [heq] at hnext
      exfalso
      have hfirst : KindSet.atomFirst.contains kind = true := hnext
      cases kind <;> contradiction
  next heq =>
    rw [heq] at hnext
    cases hnext

omit hinside in
/-- Each quantifier is a word, and takes one level of room. -/
theorem finishes_quantified {operand : Forest} (hroom : limited ∨ n ≤ room) (h : s.Within n k)
    (hk : k < lookLimit) :
    Finishes limited (quantified room operand) s fun _ s' => s'.Within n (k + 1) := by
  induction room generalizing operand s n k with
  | zero =>
    unfold quantified
    refine (finishes_nextIn h hk).bind fun b s₁ hb h₁ => ?_
    obtain ⟨rfl, htakes⟩ := reads_nextIn hb
    split
    next hmark =>
      obtain ⟨j, rfl⟩ := h.exists_succ (words_ne_nil_of_any hmark)
      -- a quantifier without room for it is a word too many
      apply finishes_nestingLimit
      rcases hroom with hlimited | hle
      · exact hlimited
      · omega
    next => exact finishes_pure h₁
  | succ room ih =>
    unfold quantified
    refine (finishes_nextIn h hk).bind fun b s₁ hb h₁ => ?_
    obtain ⟨rfl, htakes⟩ := reads_nextIn hb
    split
    next hmark =>
      obtain ⟨j, rfl⟩ := h.exists_succ (words_ne_nil_of_any hmark)
      refine (finishes_refill h₁).bind fun _ s₂ hrefill h₂ => ?_
      have hne : s₂.words ≠ [] := by
        have heq := (htakes.after (reads_refill hrefill)).words_eq
        have hwords := words_ne_nil_of_any hmark
        rwa [heq] at hwords
      refine (finishes_bump h₂ hne).bind fun quantifier s₃ _ h₃ => ?_
      have hless : limited ∨ j ≤ room := hroom.imp_right fun hle => Nat.le_of_succ_le_succ hle
      refine (ih hless h₃ (by decide)).bind fun whole s₄ _ h₄ => ?_
      refine (finishes_refill h₄).bind fun _ s₅ _ h₅ => finishes_pure ?_
      exact (h₅.of_le (Nat.le_succ j)).mono (Nat.zero_le _)
    next => exact finishes_pure h₁

/-! ### Sequences and choices -/

theorem finishes_modified (hroom : limited ∨ n < room) (h : s.Within (n + 1) k)
    (hk : k < lookLimit) (hnext : s.next.any KindSet.atomFirst.contains = true) :
    Finishes limited (modified input room inside) s fun _ s' => s'.Within n 3 := by
  refine (finishes_flush h).bind fun before s₁ hflush h₁ => ?_
  have hnext₁ : s₁.next.any KindSet.atomFirst.contains = true := by
    rwa [(reads_flush hflush).2.toMoves.next_eq]
  refine (finishes_atomic hinside hroom h₁ hk hnext₁).bind fun operand s₂ _ h₂ => ?_
  have hrest : limited ∨ n ≤ room := hroom.imp_right Nat.le_of_lt
  exact (finishes_quantified hrest h₂ (by decide)).bind fun _ s₃ _ h₃ => finishes_pure h₃

/-- Each round of a sequence takes a word. -/
theorem finishes_factors (hroom : limited ∨ n ≤ room) (h : s.Within n 4) (hfuel : n ≤ fuel) :
    Finishes limited (factors input room inside fuel) s fun _ s' => s'.Within n 5 := by
  induction fuel generalizing s n with
  | zero =>
    unfold factors
    refine (finishes_nextIn h (by decide)).bind fun b s₁ hb h₁ => ?_
    obtain ⟨rfl, -⟩ := reads_nextIn hb
    split
    next hmore =>
      obtain ⟨j, rfl⟩ := h.exists_succ (words_ne_nil_of_any hmore)
      omega
    next => exact finishes_pure h₁
  | succ fuel ih =>
    unfold factors
    refine (finishes_nextIn h (by decide)).bind fun b s₁ hb h₁ => ?_
    obtain ⟨rfl, htakes⟩ := reads_nextIn hb
    split
    next hmore =>
      obtain ⟨j, rfl⟩ := h.exists_succ (words_ne_nil_of_any hmore)
      rw [← htakes.toMoves.next_eq] at hmore
      refine (finishes_modified hinside hroom h₁ (by decide) hmore).bind fun operand s₂ _ h₂ => ?_
      have hless : limited ∨ j ≤ room := hroom.imp_right Nat.le_of_lt
      refine (ih hless (h₂.mono (by decide)) (by omega)).bind fun rest s₃ _ h₃ => ?_
      exact finishes_pure (h₃.of_le (Nat.le_succ j))
    next => exact finishes_pure h₁

theorem finishes_concat (hroom : limited ∨ n ≤ room) (h : s.Within n 4) :
    Finishes limited (concat input room inside) s fun _ s' => s'.Within n 5 := by
  refine (finishes_nextIn h (by decide)).bind fun b s₁ hb h₁ => ?_
  obtain ⟨rfl, htakes⟩ := reads_nextIn hb
  split
  next hfirst =>
    obtain ⟨j, rfl⟩ := h.exists_succ (words_ne_nil_of_any hfirst)
    have hless : limited ∨ j ≤ room := hroom.imp_right Nat.le_of_lt
    refine (finishes_flush h₁).bind fun before s₂ hflush h₂ => ?_
    rw [← (htakes.after (reads_flush hflush).2).toMoves.next_eq] at hfirst
    refine (finishes_modified hinside hroom h₂ (by decide) hfirst).bind fun first s₃ _ h₃ => ?_
    refine (finishes_nextIn h₃ (by decide)).bind fun b s₄ _ h₄ => ?_
    split
    · refine (finishes_get h₄).bind fun t s₅ _ ht => ?_
      obtain ⟨rfl, h₅⟩ := ht
      -- the fuel is the number of words ahead
      obtain ⟨hexact, hle⟩ := h₅.exact
      have hwords : limited ∨ t.ahead.length ≤ room := hless.imp_right (Nat.le_trans hle)
      refine (finishes_factors hinside hwords hexact (Nat.le_refl _)).bind fun rest s₆ _ h₆ => ?_
      exact finishes_pure (h₆.of_le (Nat.le_succ_of_le hle))
    · exact finishes_pure ((h₄.of_le (Nat.le_succ j)).mono (by decide))
  next => exact (finishes_report h₁).bind fun _ s₂ _ h₂ => finishes_pure h₂

/-- Each round of a choice takes its bar. -/
theorem finishes_branches (hroom : limited ∨ n ≤ room) (h : s.Within n 6) (hfuel : n ≤ fuel) :
    Finishes limited (branches input room inside fuel) s fun _ s' => s'.Within n 7 := by
  induction fuel generalizing s n with
  | zero =>
    unfold branches
    refine (finishes_eat? h (by decide)).bind fun bar s₁ _ hbar => ?_
    rcases hbar with ⟨rfl, h₁⟩ | ⟨f, j, rfl, rfl, h₁⟩
    · exact finishes_pure h₁
    · omega
  | succ fuel ih =>
    unfold branches
    refine (finishes_eat? h (by decide)).bind fun bar s₁ _ hbar => ?_
    rcases hbar with ⟨rfl, h₁⟩ | ⟨f, j, rfl, rfl, h₁⟩
    · exact finishes_pure h₁
    · have hless : limited ∨ j ≤ room := hroom.imp_right Nat.le_of_lt
      refine (finishes_concat hinside hless (h₁.mono (by decide))).bind fun operand s₂ _ h₂ => ?_
      refine (ih hless (h₂.mono (by decide)) (by omega)).bind fun rest s₃ _ h₃ => ?_
      exact finishes_pure (h₃.of_le (Nat.le_succ j))

theorem finishes_union (hroom : limited ∨ n ≤ room) (h : s.Within n 4) :
    Finishes limited (union input room inside) s fun _ s' => s'.Within n 7 := by
  refine (finishes_flush h).bind fun before s₁ _ h₁ => ?_
  refine (finishes_concat hinside hroom h₁).bind fun first s₂ _ h₂ => ?_
  refine (finishes_nextIs h₂ (by decide)).bind fun b s₃ _ h₃ => ?_
  split
  · refine (finishes_get h₃).bind fun t s₄ _ ht => ?_
    obtain ⟨rfl, h₄⟩ := ht
    obtain ⟨hexact, hle⟩ := h₄.exact
    have hwords : limited ∨ t.ahead.length ≤ room := hroom.imp_right (Nat.le_trans hle)
    refine (finishes_branches hinside hwords hexact (Nat.le_refl _)).bind fun rest s₅ _ h₅ => ?_
    exact finishes_pure (h₅.of_le hle)
  · exact finishes_pure (h₃.mono (by decide))

end Inside

/-- A regex finishes if its words fit into its room, or if there may be too few levels. -/
theorem finishes_regex (room : Nat) {n : Nat} {s : ParseState} (hroom : limited ∨ n ≤ room)
    (h : s.Within n 4) : Finishes limited (regex input room) s fun _ s' => s'.Within n 7 := by
  induction room generalizing n s with
  | zero =>
    have hinside : InsideFinishes limited 0 none := rfl
    exact finishes_union hinside hroom h
  | succ room ih =>
    have hinside : InsideFinishes limited (room + 1) (some (regex input room)) :=
      fun n s hless h => ih (hless.imp_right Nat.le_of_lt_succ) h
    exact finishes_union hinside hroom h

/-! ### Whole texts -/

theorem finishes_setAside (h : s.Within (n + 1) k) (hne : s.words ≠ []) :
    Finishes limited (setAside input) s fun _ s' => s'.Within n 0 := by
  refine (finishes_report h).bind fun _ s₁ hreport h₁ => ?_
  refine (finishes_atEnd h₁).bind fun ended s₂ hended h₂ => ?_
  obtain ⟨rfl, htakes⟩ := reads_atEnd hended
  have hmoves := (reads_report hreport).1
  have hwords := hmoves.words_eq
  rw [List.nil_append] at hwords
  rw [hwords] at hne
  split
  next hend => exact absurd (List.isEmpty_iff.1 hend) hne
  next =>
    refine (finishes_flush h₂).bind fun before s₃ hflush h₃ => ?_
    have heq := (htakes.after (reads_flush hflush).2).words_eq
    rw [heq] at hne
    exact (finishes_bump h₃ hne).bind fun word s₄ _ h₄ => finishes_pure h₄

/-- Each round sets a word aside. -/
theorem finishes_leftovers (hroom : limited ∨ n ≤ room) (h : s.Within n 7) (hfuel : n ≤ fuel) :
    Finishes limited (leftovers input room fuel) s fun _ s' => s'.Within n 7 := by
  induction fuel generalizing s n with
  | zero =>
    unfold leftovers
    refine (finishes_atEnd h).bind fun ended s₁ hended h₁ => ?_
    obtain ⟨rfl, -⟩ := reads_atEnd hended
    split
    next => exact finishes_pure h₁
    next hmore =>
      obtain ⟨j, rfl⟩ := h.exists_succ fun hnil => hmore (List.isEmpty_iff.2 hnil)
      omega
  | succ fuel ih =>
    unfold leftovers
    refine (finishes_atEnd h).bind fun ended s₁ hended h₁ => ?_
    obtain ⟨rfl, htakes⟩ := reads_atEnd hended
    split
    next => exact finishes_pure h₁
    next hmore =>
      have hne : s.words ≠ [] := fun hnil => hmore (List.isEmpty_iff.2 hnil)
      obtain ⟨j, rfl⟩ := h.exists_succ hne
      have hless : limited ∨ j ≤ room := hroom.imp_right Nat.le_of_lt
      have heq := htakes.words_eq
      rw [heq] at hne
      refine (finishes_setAside h₁ hne).bind fun misplaced s₂ _ h₂ => ?_
      refine (finishes_nextIn h₂ (by decide)).bind fun b s₃ _ h₃ => ?_
      -- Reading goes on in the same way, whether a regex follows the word or not.
      have hrest (more : Forest) (t : ParseState) (ht : t.Within j 7) : Finishes limited (do
          return misplaced ++ more ++ (← leftovers input room fuel)) t
            fun _ s' => s'.Within (j + 1) 7 := by
        refine (ih hless ht (by omega)).bind fun rest s₅ _ h₅ => ?_
        exact finishes_pure (h₅.of_le (Nat.le_succ j))
      split
      · refine (finishes_regex room hless (h₃.mono (by decide))).bind fun more t _ ht => ?_
        exact hrest more t ht
      · have hempty : Finishes limited (pure ([] : Forest)) s₃ fun _ s' => s'.Within j 7 :=
          finishes_pure (h₃.mono (by decide))
        exact hempty.bind fun more t _ ht => hrest more t ht

theorem finishes_root (hroom : limited ∨ n ≤ room) (h : s.Within n 0) :
    Finishes limited (root input room) s fun _ _ => True := by
  refine (finishes_atEnd h).bind fun ended s₁ _ h₁ => ?_
  have hrest (body : Forest) (t : ParseState) (ht : t.Within n 7) : Finishes limited (do
      return Tree.node .root (body ++ (← flush))) t fun _ _ => True :=
    (finishes_flush ht).bind fun _ _ _ _ => finishes_pure trivial
  have hforest (body : Forest) (t : ParseState) (ht : t.Within n 7) :
      Finishes limited (pure body) t fun _ s' => s'.Within n 7 := finishes_pure ht
  split
  · refine (finishes_report h₁).bind fun _ s₂ _ h₂ => ?_
    exact (hforest [] s₂ (h₂.mono (by decide))).bind fun body t _ ht => hrest body t ht
  · refine (finishes_regex room hroom (h₁.mono (by decide))).bind fun first s₂ _ h₂ => ?_
    refine (finishes_get h₂).bind fun t s₃ _ ht => ?_
    obtain ⟨rfl, h₃⟩ := ht
    obtain ⟨hexact, hle⟩ := h₃.exact
    have hwords : limited ∨ t.ahead.length ≤ room := hroom.imp_right (Nat.le_trans hle)
    refine (finishes_leftovers hwords hexact (Nat.le_refl _)).bind fun rest s₄ _ h₄ => ?_
    have hboth : s₄.Within n 7 := h₄.of_le hle
    exact (hforest (first ++ rest) s₄ hboth).bind fun body t' _ ht' => hrest body t' ht'

/-- The reader of a whole text finishes, whatever the text is. -/
theorem finishes_ofTokens (limited : Prop) (input : Input) (room : Nat) (ts : List Token)
    (hroom : limited ∨ (visible ts).length ≤ room) :
    Finishes limited (root input room) (.ofTokens ts) fun _ _ => True := by
  have hwords : (ParseState.ofTokens ts).words = visible ts := (splitWords_spec ts).1
  exact finishes_root hroom ⟨Nat.le_of_eq (congrArg List.length hwords), Nat.le_refl _⟩

end Parser

/-- A text has a tree, or it is nested too deeply; this is impossible where a level is left for each
of its words. -/
theorem parse_finishes {limited : Prop} (text : String) (source : SourceId) {limit : Nat}
    (hroom : limited ∨ (visible (tokens text)).length ≤ limit) :
    (∃ p, parse text source limit = .ok p) ∨
      parse text source limit = .error .nestingLimit ∧ limited := by
  have hfinishes := Parser.finishes_ofTokens limited ⟨source, text.utf8ByteSize⟩ limit
    (tokens text) hroom
  unfold Parser.Finishes at hfinishes
  unfold parse
  split at hfinishes
  next tree s heq =>
    rw [heq]
    exact .inl ⟨_, rfl⟩
  next heq =>
    rw [heq]
    exact .inr ⟨rfl, hfinishes⟩
  next => exact hfinishes.elim

/-- Reading never ends with a fault: a text has a tree, or is nested too deeply. -/
theorem parse_cases (text : String) (source : SourceId) (limit : Nat) :
    (∃ p, parse text source limit = .ok p) ∨ parse text source limit = .error .nestingLimit :=
  (parse_finishes text source (.inl trivial)).imp_right And.left

/-- The reader of a whole text answers a tree or stops at the limit. -/
theorem Parser.root_cases (text : String) (source : SourceId) (limit : Nat) :
    (∃ tree s, root ⟨source, text.utf8ByteSize⟩ limit (.ofTokens (tokens text)) = .ok (tree, s)) ∨
      root ⟨source, text.utf8ByteSize⟩ limit (.ofTokens (tokens text)) = .error .nestingLimit := by
  have hfinishes := finishes_ofTokens True ⟨source, text.utf8ByteSize⟩ limit (tokens text)
    (.inl trivial)
  unfold Finishes at hfinishes
  split at hfinishes
  next tree s heq => exact .inl ⟨tree, s, heq⟩
  next heq => exact .inr heq
  next => exact hfinishes.elim

/-- A reader that stops does so because of the limit. -/
theorem parse_eq_error_of_root {text : String} {source : SourceId} {limit : Nat} {halt : Halt}
    (h : Parser.root ⟨source, text.utf8ByteSize⟩ limit (.ofTokens (tokens text)) = .error halt) :
    parse text source limit = .error .nestingLimit := by
  refine (parse_cases text source limit).resolve_left ?_
  rintro ⟨p, hparse⟩
  rw [parse, h] at hparse
  cases hparse

theorem parse_eq_ok_of_root {text : String} {source : SourceId} {limit : Nat} {tree : Tree}
    {s : ParseState}
    (h : Parser.root ⟨source, text.utf8ByteSize⟩ limit (.ofTokens (tokens text)) = .ok (tree, s)) :
    parse text source limit = .ok ⟨tree, s.reports⟩ := by
  rw [parse, h]

/-- A text with no more words than there are levels has a tree. -/
theorem exists_parse_eq_ok (text : String) (source : SourceId) {limit : Nat}
    (h : (visible (tokens text)).length ≤ limit) : ∃ p, parse text source limit = .ok p :=
  (parse_finishes text source (.inr h)).resolve_right And.right

end CallChain
