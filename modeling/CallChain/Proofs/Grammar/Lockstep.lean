import CallChain.Proofs.Grammar.Walk
import Mathlib.Data.List.Forall2

/-!
# Two runs side by side

The reader runs twice: on two texts, or with two limits. A relation between the states of both runs,
and one between the trees they answer, hold of whole texts if the single steps respect them
(`Twins`). The productions look at the same kinds of words in both runs, so they take the same
branches and end together.

The second run may have more room. Then it may go on where the first one stops, and nothing is said
about it from there on; up to that point both are in step (`Abreast`).

* `Lockstep.bind`: one step after another.
* `Twins.regex`, `Twins.leftovers`, `Twins.root`: the productions.
-/

namespace CallChain.Parser

open ParseState

variable {α β γ δ : Type}

/-- The ends of two steps: related ones, or both stop. Where `ahead` holds, the second may go on
when the first has stopped. -/
inductive Abreast (ahead : Prop) (states : ParseState → ParseState → Prop) (post : α → β → Prop) :
    Except Halt (α × ParseState) → Except Halt (β × ParseState) → Prop where
  | both {a : α} {b : β} {s s' : ParseState} (hpost : post a b) (hstates : states s s') :
      Abreast ahead states post (.ok (a, s)) (.ok (b, s'))
  | halted {h h' : Halt} : Abreast ahead states post (.error h) (.error h')
  | second {h : Halt} {r : β × ParseState} (hahead : ahead) :
      Abreast ahead states post (.error h) (.ok r)

/-- Two steps that end abreast, from related states. -/
def Lockstep (ahead : Prop) (states : ParseState → ParseState → Prop) (m : Parser α)
    (m' : Parser β) (post : α → β → Prop) : Prop :=
  ∀ s s', states s s' → Abreast ahead states post (m s) (m' s')

/-! ### Composing steps -/

section Lockstep

variable {ahead : Prop} {states : ParseState → ParseState → Prop} {m : Parser α} {m' : Parser β}
  {post post' : α → β → Prop} {last : γ → δ → Prop}

theorem Lockstep.bind {g : α → Parser γ} {g' : β → Parser δ}
    (hm : Lockstep ahead states m m' post)
    (hg : ∀ a b, post a b → Lockstep ahead states (g a) (g' b) last) :
    Lockstep ahead states (m >>= g) (m' >>= g') last := by
  intro s s' hstates
  have hfirst := hm s s' hstates
  show Abreast ahead states last (m s >>= fun p => g p.1 p.2) (m' s' >>= fun p => g' p.1 p.2)
  generalize m s = r at hfirst
  generalize m' s' = r' at hfirst
  cases hfirst with
  | both hpost hstates' => exact hg _ _ hpost _ _ hstates'
  | halted => exact .halted
  | @second h r hahead =>
    -- the first run has stopped, however the second one ends
    show Abreast ahead states last (.error h) (g' r.1 r.2)
    cases g' r.1 r.2 with
    | error h' => exact .halted
    | ok r' => exact .second hahead

theorem Lockstep.mono (h : Lockstep ahead states m m' post) (himp : ∀ a b, post a b → post' a b) :
    Lockstep ahead states m m' post' := by
  intro s s' hstates
  have hends := h s s' hstates
  generalize m s = r at hends ⊢
  generalize m' s' = r' at hends ⊢
  cases hends with
  | both hpost hstates' => exact .both (himp _ _ hpost) hstates'
  | halted => exact .halted
  | second hahead => exact .second hahead

theorem lockstep_pure {a : α} {b : β} (h : post a b) :
    Lockstep ahead states (pure a) (pure b) post := fun _ _ hstates => .both h hstates

theorem lockstep_throw {h h' : Halt} :
    Lockstep ahead states (throw h : Parser α) (throw h' : Parser β) post := fun _ _ _ => .halted

/-- The first run stops where the second may be ahead of it. -/
theorem lockstep_throw_left {h : Halt} (hahead : ahead) :
    Lockstep ahead states (throw h : Parser α) m' post := by
  intro s s' _
  show Abreast ahead states post (.error h) (m' s')
  cases m' s' with
  | error h' => exact .halted
  | ok r => exact .second hahead

end Lockstep

/-! ### What is related -/

/-- What two runs have to do with each other. -/
structure Pairing where
  /-- May the second run go on where the first one stops? -/
  ahead : Prop
  input : Input
  input' : Input
  states : ParseState → ParseState → Prop
  spans : Span → Span → Prop
  trees : Forest → Forest → Prop

namespace Pairing

variable (P : Pairing)

/-- Two steps that end abreast. -/
abbrev Locked (m : Parser α) (m' : Parser β) (post : α → β → Prop) : Prop :=
  Lockstep P.ahead P.states m m' post

/-- Stretches that a report points back to, with the same messages. -/
def Relates (related related' : List Related) : Prop :=
  List.Forall₂ (fun r r' => r.message = r'.message ∧ P.spans r.span r'.span) related related'

/-- Trees that may be missing. -/
def optional (o o' : Option Forest) : Prop :=
  o.isNone = o'.isNone ∧ P.trees (o.getD []) (o'.getD [])

/-- The second run has the same room, or more of it where it may go on alone. -/
def Roomier (room room' : Nat) : Prop := room = room' ∨ P.ahead ∧ room ≤ room'

/-- What reads the inside of groups: the same in both runs, or only in the second where it may go on
alone. -/
inductive Insides : Option (Parser Forest) → Option (Parser Forest) → Prop where
  | none : Insides none none
  | some {reader reader' : Parser Forest} (h : P.Locked reader reader' P.trees) :
      Insides (some reader) (some reader')
  | second {reader' : Parser Forest} (hahead : P.ahead) : Insides none (some reader')

variable {P} {room room' : Nat}

/-- More room is there only where the second run may go on alone. -/
theorem Roomier.ahead (h : P.Roomier room room') (hlt : room < room') : P.ahead :=
  (h.resolve_left (Nat.ne_of_lt hlt)).1

/-- One level deeper there is again the same room, or more. -/
theorem Roomier.exists_succ (h : P.Roomier (room + 1) room') :
    ∃ more, room' = more + 1 ∧ P.Roomier room more := by
  rcases h with rfl | ⟨hahead, hle⟩
  · exact ⟨room, rfl, .inl rfl⟩
  · refine ⟨room' - 1, by omega, .inr ⟨hahead, by omega⟩⟩

end Pairing

/-- The single steps respect a pairing. -/
structure Twins (P : Pairing) : Prop where
  length {s s' : ParseState} : P.states s s' → s.ahead.length = s'.ahead.length
  look : P.Locked look look (· = ·)
  refill : P.Locked refill refill fun _ _ => True
  flush : P.Locked flush flush P.trees
  bump : P.Locked bump bump P.trees
  nextSpan : P.Locked (nextSpan P.input) (nextSpan P.input') P.spans
  report {kind : DiagnosticKind} {related related' : List Related} : P.Relates related related' →
    P.Locked (report P.input kind related) (report P.input' kind related') fun _ _ => True
  nil : P.trees [] []
  append {f f' g g' : Forest} : P.trees f f' → P.trees g g' → P.trees (f ++ g) (f' ++ g')
  node {kind : SyntaxKind} {f f' : Forest} : P.trees f f' →
    P.trees [.node kind f] [.node kind f']

namespace Twins

variable {P : Pairing} (t : Twins P) {operand operand' : Forest} {room room' fuel : Nat}
  {inside inside' : Option (Parser Forest)}

include t

/-! ### Steps -/

theorem nextIs {kind : SyntaxKind} : P.Locked (nextIs kind) (nextIs kind) (· = ·) :=
  t.look.bind fun _ _ h => lockstep_pure (by rw [h])

theorem nextIn {kinds : KindSet} : P.Locked (nextIn kinds) (nextIn kinds) (· = ·) :=
  t.look.bind fun _ _ h => lockstep_pure (by rw [h])

/-- The same number of words is ahead, which bounds the rounds of a loop. -/
theorem get : P.Locked get get fun s s' => s.ahead.length = s'.ahead.length :=
  fun _ _ hstates => .both (t.length hstates) hstates

theorem atEnd : P.Locked atEnd atEnd (· = ·) := by
  refine t.get.bind fun s s' hlength => lockstep_pure ?_
  rw [Bool.eq_iff_iff, List.isEmpty_iff_length_eq_zero, List.isEmpty_iff_length_eq_zero, hlength]

/-- A loop without rounds left stops in both runs. -/
theorem stuck {post : α → β → Prop} :
    P.Locked (do throw (.fault (.stuckParser (← (MonadState.get : Parser ParseState)).taken)))
      (do throw (.fault (.stuckParser (← (MonadState.get : Parser ParseState)).taken))) post :=
  t.get.bind fun _ _ _ => lockstep_throw

theorem eat? {kind : SyntaxKind} : P.Locked (eat? kind) (eat? kind) P.optional := by
  refine t.nextIs.bind fun b b' h => ?_
  subst h
  split
  · exact t.bump.bind fun f f' hf => lockstep_pure ⟨rfl, hf⟩
  · exact lockstep_pure ⟨rfl, t.nil⟩

/-- A report that is made on a condition, before the rest of a production. -/
theorem reportIf {c c' : Prop} [Decidable c] [Decidable c'] {kind : DiagnosticKind}
    {related related' : List Related} {g : Unit → Parser α} {g' : Unit → Parser β}
    {post : α → β → Prop} (hc : c ↔ c') (hrelated : P.Relates related related')
    (hg : P.Locked (g ()) (g' ()) post) :
    P.Locked (if c then Parser.report P.input kind related >>= g else g ())
      (if c' then Parser.report P.input' kind related' >>= g' else g' ()) post := by
  by_cases h : c
  · rw [if_pos h, if_pos (hc.1 h)]
    exact (t.report hrelated).bind fun _ _ _ => hg
  · rw [if_neg h, if_neg (mt hc.2 h)]
    exact hg

/-! ### Atoms -/

theorem leaf {kind : SyntaxKind} : P.Locked (leaf kind) (leaf kind) P.trees :=
  t.bump.bind fun _ _ hf => lockstep_pure (t.node hf)

theorem reference : P.Locked (reference P.input) (reference P.input') P.trees := by
  refine t.nextSpan.bind fun opening opening' hopening => ?_
  refine t.bump.bind fun bracket bracket' hbracket => ?_
  refine t.eat?.bind fun name name' hname => ?_
  refine t.reportIf (by rw [hname.1]) .nil ?_
  refine t.eat?.bind fun closing closing' hclosing => ?_
  refine t.reportIf (by rw [hclosing.1]) (.cons ⟨rfl, hopening⟩ .nil) ?_
  exact lockstep_pure (t.node (t.append (t.append hbracket hname.2) hclosing.2))

section Inside

variable (hinside : P.Insides inside inside')

include hinside

theorem group : P.Locked (group P.input inside) (group P.input' inside') P.trees := by
  cases hinside with
  | none => exact lockstep_throw
  | second hahead => exact lockstep_throw_left hahead
  | some hreader =>
    refine t.refill.bind fun _ _ _ => ?_
    refine t.nextSpan.bind fun opening opening' hopening => ?_
    refine t.bump.bind fun bracket bracket' hbracket => ?_
    refine t.nextIs.bind fun closed closed' hclosed => ?_
    refine t.atEnd.bind fun ended ended' hended => ?_
    subst hclosed hended
    -- The three ways to the body meet again behind it.
    have hrest (body body' : Forest) (hbody : P.trees body body') : P.Locked (do
          let closing ← Parser.eat? .parenClose
          if closing.isNone then
            Parser.report P.input .unclosedGroup [⟨"group started here", opening⟩]
          Parser.refill
          return [Tree.node .group (bracket ++ body ++ closing.getD [])])
        (do
          let closing ← Parser.eat? .parenClose
          if closing.isNone then
            Parser.report P.input' .unclosedGroup [⟨"group started here", opening'⟩]
          Parser.refill
          return [Tree.node .group (bracket' ++ body' ++ closing.getD [])]) P.trees := by
      refine t.eat?.bind fun closing closing' hclosing => ?_
      refine t.reportIf (by rw [hclosing.1]) (.cons ⟨rfl, hopening⟩ .nil) ?_
      refine t.refill.bind fun _ _ _ => ?_
      exact lockstep_pure (t.node (t.append (t.append hbracket hbody) hclosing.2))
    have hempty : P.Locked (pure []) (pure []) P.trees := lockstep_pure t.nil
    split
    · exact (t.report .nil).bind fun _ _ _ => hempty.bind hrest
    · split
      · exact hempty.bind hrest
      · exact hreader.bind hrest

theorem atomic : P.Locked (atomic P.input inside) (atomic P.input' inside') P.trees := by
  have hmissing : P.Locked (do Parser.report P.input .expectedExpression []; return [])
      (do Parser.report P.input' .expectedExpression []; return []) P.trees :=
    (t.report .nil).bind fun _ _ _ => lockstep_pure t.nil
  refine t.look.bind fun next next' h => ?_
  subst h
  split
  · exact t.group hinside
  · exact t.reference
  · exact t.leaf
  · split
    · exact t.leaf
    · exact hmissing
  · exact hmissing

omit hinside in
theorem quantified (hroom : P.Roomier room room') (hoperand : P.trees operand operand') :
    P.Locked (quantified room operand) (quantified room' operand') P.trees := by
  induction room generalizing room' operand operand' with
  | zero =>
    rw [quantified_eq, quantified_eq]
    refine t.nextIn.bind fun b b' h => ?_
    subst h
    split
    · -- the first run stops; the second does too, or may go on
      cases room' with
      | zero => exact lockstep_throw
      | succ room' => exact lockstep_throw_left (hroom.ahead room'.succ_pos)
    · exact lockstep_pure hoperand
  | succ room ih =>
    obtain ⟨more, rfl, hless⟩ := hroom.exists_succ
    rw [quantified_eq, quantified_eq]
    refine t.nextIn.bind fun b b' h => ?_
    subst h
    split
    · refine t.refill.bind fun _ _ _ => ?_
      refine t.bump.bind fun quantifier quantifier' hquantifier => ?_
      refine (ih hless (t.node (t.append hoperand hquantifier))).bind fun whole whole' hwhole => ?_
      exact t.refill.bind fun _ _ _ => lockstep_pure hwhole
    · exact lockstep_pure hoperand

/-! ### Sequences and choices -/

variable (hroom : P.Roomier room room')

include hroom

theorem modified :
    P.Locked (modified P.input room inside) (modified P.input' room' inside') P.trees := by
  refine t.flush.bind fun before before' hbefore => ?_
  refine (t.atomic hinside).bind fun operand operand' hoperand => ?_
  refine (t.quantified hroom hoperand).bind fun whole whole' hwhole => ?_
  exact lockstep_pure (t.append hbefore hwhole)

theorem factors :
    P.Locked (factors P.input room inside fuel) (factors P.input' room' inside' fuel) P.trees := by
  induction fuel with
  | zero =>
    unfold Parser.factors
    refine t.nextIn.bind fun b b' h => ?_
    subst h
    split
    · exact t.stuck
    · exact lockstep_pure t.nil
  | succ fuel ih =>
    unfold Parser.factors
    refine t.nextIn.bind fun b b' h => ?_
    subst h
    split
    · refine (t.modified hinside hroom).bind fun operand operand' hoperand => ?_
      exact ih.bind fun rest rest' hrest => lockstep_pure (t.append hoperand hrest)
    · exact lockstep_pure t.nil

theorem concat : P.Locked (concat P.input room inside) (concat P.input' room' inside') P.trees := by
  refine t.nextIn.bind fun b b' h => ?_
  subst h
  split
  · refine t.flush.bind fun before before' hbefore => ?_
    refine (t.modified hinside hroom).bind fun first first' hfirst => ?_
    refine t.nextIn.bind fun b b' h => ?_
    subst h
    split
    · refine t.get.bind fun s s' hlength => ?_
      rw [hlength]
      refine (t.factors hinside hroom).bind fun rest rest' hrest => ?_
      exact lockstep_pure (t.append hbefore (t.node (t.append hfirst hrest)))
    · exact lockstep_pure (t.append hbefore hfirst)
  · exact (t.report .nil).bind fun _ _ _ => lockstep_pure t.nil

theorem branches :
    P.Locked (branches P.input room inside fuel) (branches P.input' room' inside' fuel)
      P.trees := by
  induction fuel with
  | zero =>
    unfold Parser.branches
    refine t.eat?.bind fun bar bar' hbar => ?_
    rcases bar with - | bar <;> rcases bar' with - | bar'
    · exact lockstep_pure t.nil
    · cases hbar.1
    · cases hbar.1
    · exact t.stuck
  | succ fuel ih =>
    unfold Parser.branches
    refine t.eat?.bind fun bar bar' hbar => ?_
    rcases bar with - | bar <;> rcases bar' with - | bar'
    · exact lockstep_pure t.nil
    · cases hbar.1
    · cases hbar.1
    · refine (t.concat hinside hroom).bind fun operand operand' hoperand => ?_
      refine ih.bind fun rest rest' hrest => ?_
      exact lockstep_pure (t.append (t.append hbar.2 hoperand) hrest)

theorem union : P.Locked (union P.input room inside) (union P.input' room' inside') P.trees := by
  refine t.flush.bind fun before before' hbefore => ?_
  refine (t.concat hinside hroom).bind fun first first' hfirst => ?_
  refine t.nextIs.bind fun b b' h => ?_
  subst h
  split
  · refine t.get.bind fun s s' hlength => ?_
    rw [hlength]
    refine (t.branches hinside hroom).bind fun rest rest' hrest => ?_
    exact lockstep_pure (t.append hbefore (t.node (t.append hfirst hrest)))
  · exact lockstep_pure (t.append hbefore hfirst)

end Inside

/-- A regex at any depth. -/
theorem regex (hroom : P.Roomier room room') :
    P.Locked (regex P.input room) (regex P.input' room') P.trees := by
  induction room generalizing room' with
  | zero =>
    cases room' with
    | zero => exact t.union .none hroom
    | succ room' => exact t.union (.second (hroom.ahead room'.succ_pos)) hroom
  | succ room ih =>
    obtain ⟨more, rfl, hless⟩ := hroom.exists_succ
    exact t.union (.some (ih hless)) hroom

/-! ### Whole texts -/

theorem setAside : P.Locked (setAside P.input) (setAside P.input') P.trees := by
  refine (t.report .nil).bind fun _ _ _ => ?_
  refine t.atEnd.bind fun ended ended' h => ?_
  subst h
  split
  · exact lockstep_pure t.nil
  · refine t.flush.bind fun before before' hbefore => ?_
    exact t.bump.bind fun word word' hword => lockstep_pure (t.append hbefore (t.node hword))

theorem leftovers (hroom : P.Roomier room room') :
    P.Locked (leftovers P.input room fuel) (leftovers P.input' room' fuel) P.trees := by
  induction fuel with
  | zero =>
    unfold Parser.leftovers
    refine t.atEnd.bind fun ended ended' h => ?_
    subst h
    split
    · exact lockstep_pure t.nil
    · exact t.stuck
  | succ fuel ih =>
    unfold Parser.leftovers
    refine t.atEnd.bind fun ended ended' h => ?_
    subst h
    split
    · exact lockstep_pure t.nil
    · refine t.setAside.bind fun misplaced misplaced' hmisplaced => ?_
      refine t.nextIn.bind fun b b' h => ?_
      subst h
      -- Reading goes on in the same way, whether a regex follows the word or not.
      have hrest (more more' : Forest) (hmore : P.trees more more') : P.Locked
          (do return misplaced ++ more ++ (← Parser.leftovers P.input room fuel))
          (do return misplaced' ++ more' ++ (← Parser.leftovers P.input' room' fuel))
          P.trees :=
        ih.bind fun rest rest' hrest =>
          lockstep_pure (t.append (t.append hmisplaced hmore) hrest)
      split
      · exact (t.regex hroom).bind hrest
      · have hempty : P.Locked (pure []) (pure []) P.trees := lockstep_pure t.nil
        exact hempty.bind hrest

theorem root (hroom : P.Roomier room room') : P.Locked (root P.input room) (root P.input' room')
    fun tree tree' => P.trees [tree] [tree'] := by
  refine t.atEnd.bind fun ended ended' h => ?_
  subst h
  have hrest (body body' : Forest) (hbody : P.trees body body') : P.Locked
      (do return Tree.node .root (body ++ (← Parser.flush)))
      (do return Tree.node .root (body' ++ (← Parser.flush)))
      fun tree tree' => P.trees [tree] [tree'] :=
    t.flush.bind fun blanks blanks' hblanks => lockstep_pure (t.node (t.append hbody hblanks))
  split
  · refine (t.report .nil).bind fun _ _ _ => ?_
    have hempty : P.Locked (pure []) (pure []) P.trees := lockstep_pure t.nil
    exact hempty.bind hrest
  · refine (t.regex hroom).bind fun first first' hfirst => ?_
    refine t.get.bind fun s s' hlength => ?_
    rw [hlength]
    refine (t.leftovers hroom).bind fun others others' hothers => ?_
    have hboth : P.Locked (pure (first ++ others)) (pure (first' ++ others')) P.trees :=
      lockstep_pure (t.append hfirst hothers)
    exact hboth.bind hrest

end Twins

end CallChain.Parser
