import CallChain.Proofs.Automaton.Canonical

/-!
# Sequences of calls

An automaton is used through calls, made with any handles. A call checks its handles one after the
other and changes the automaton last, so a call that meets a fault leaves it as it was. Every call
keeps the automaton well-formed, and with it what has been written: where no state is renumbered a
transition is found until another one is written for its state and action, and canonicalizing
renumbers what has been written.

* `connect_eq`: connecting as a sequence of checks and one change.
* `perform_of_error`: calls that meet a fault.
* `Faithful.after`, `faithful_run`: one call, and all calls.
* `calls_sound`: what holds whatever has been called.
-/

namespace CallChain

namespace Automaton

/-! ### Calls -/

/-- A call and the handles it is made with. Looking at the actions, the states and the initial state
meets no fault and is left out. -/
inductive Call where
  | addState
  | addTransition (source : StateId) (action : ActionId) (successor : Successor)
  /-- What follows is about the canonical automaton. -/
  | canonicalize
  | successor? (state : StateId) (action : ActionId)
  | hasTransitions (state : StateId)
  | transitions (state : StateId)
  | isVarargsApplicable (step : Transition)
  | numbering
  | dump (p : Palette)
  | exported

@[reducible] def Call.Answer : Call → Type
  | addState => StateId
  | addTransition _ _ _ => Option Successor
  | canonicalize => Unit
  | successor? _ _ => Option Successor
  | hasTransitions _ => Bool
  | transitions _ => List Transition
  | isVarargsApplicable _ => Bool
  | numbering => Numbering
  | dump _ => String
  | exported => ExportedAutomaton

/-- Steps on an automaton, which stays as it is where they end, also after a fault. -/
abbrev Session := ExceptT Fault (StateM Automaton)

namespace Session

/-- Looks at the automaton. -/
def ask {α : Type} (question : Automaton → Except Fault α) : Session α := fun a => (question a, a)

/-- Checks the action first, the target next and the source last, and then connects them. -/
def connect (source : StateId) (action : ActionId) (successor : Successor) :
    Session (Option Successor) := do
  let _ ← ask (·.table.get action)
  ask (·.checkSuccessor successor)
  let out ← ask (·.outgoing source)
  modify (·.connected source action successor)
  return out.find? action

end Session

/-- The steps of a call. -/
def Call.perform : (c : Call) → Session c.Answer
  | addState => fun a => (.ok a.addState.1, a.addState.2)
  | addTransition source action successor => Session.connect source action successor
  | canonicalize => do set (← Session.ask (·.canonicalize))
  | successor? state action => Session.ask (·.successor? state action)
  | hasTransitions state => Session.ask (·.hasTransitions state)
  | transitions state => Session.ask (·.transitions state)
  | isVarargsApplicable step => Session.ask (·.isVarargsApplicable step)
  | numbering => Session.ask (·.numbering)
  | dump p => Session.ask (·.dump p)
  | exported => Session.ask (·.exported)

variable {a a' : Automaton} {source state : StateId} {action id : ActionId}
  {successor s : Successor} {replaced : Option Successor} {c : Call} {f : Fault}

/-! ### Single calls -/

section Ask

variable {α β : Type} {question : Automaton → Except Fault α} {next : α → Session β} {x : α}

theorem Session.ask_bind_ok (h : question a = .ok x) : (ask question >>= next) a = next x a := by
  show ExceptT.bindCont next (question a) a = _
  rw [h]
  rfl

theorem Session.ask_bind_error (h : question a = .error f) :
    (ask question >>= next) a = (.error f, a) := by
  show ExceptT.bindCont next (question a) a = _
  rw [h]
  rfl

end Ask

theorem out_eq_of_outgoing {out : Outgoing} (h : a.outgoing source = .ok out) :
    a.out source = out := by
  rw [outgoing] at h
  rw [Automaton.out]
  split at h
  next hout =>
    rw [hout]
    exact Except.ok.inj h
  next => cases h

/-- Connecting step by step is connecting at once; after a fault the automaton is what it was. -/
theorem connect_eq : Session.connect source action successor a =
    match a.addTransition source action successor with
    | .ok (replaced, a') => (.ok replaced, a')
    | .error f => (.error f, a) := by
  unfold Session.connect addTransition
  -- check by check, in the order in which both make them
  cases haction : a.table.get action with
  | error f =>
    rw [Session.ask_bind_error haction]
    rfl
  | ok _ =>
    rw [Session.ask_bind_ok haction]
    cases hsuccessor : a.checkSuccessor successor with
    | error f =>
      rw [Session.ask_bind_error hsuccessor]
      rfl
    | ok _ =>
      rw [Session.ask_bind_ok hsuccessor]
      cases hsource : a.outgoing source with
      | error f =>
        rw [Session.ask_bind_error hsource]
        rfl
      | ok out =>
        rw [Session.ask_bind_ok hsource]
        show (Except.ok (out.find? action), a.connected source action successor) = _
        rw [connected, out_eq_of_outgoing hsource]
        rfl

/-- A call that meets a fault leaves the automaton as it was. -/
theorem perform_of_error (h : (c.perform a).1 = .error f) : (c.perform a).2 = a := by
  cases c with
  | addState => cases h
  | addTransition source action successor =>
    rw [Call.perform, connect_eq] at h ⊢
    cases hresult : a.addTransition source action successor with
    | ok result =>
      rw [hresult] at h
      cases h
    | error f => rfl
  | canonicalize =>
    rw [Call.perform] at h ⊢
    cases hresult : a.canonicalize with
    | ok result =>
      rw [Session.ask_bind_ok hresult] at h
      cases h
    | error f => rw [Session.ask_bind_error hresult]
  -- the others only look at the automaton
  | successor? | hasTransitions | transitions | isVarargsApplicable | numbering | dump
  | exported => rfl

/-! ### What has been written -/

/-- A transition under canonical numbers; none if it begins or ends at a state that has none. -/
def renumbered? (a : Automaton) (t : Transition) : Option Transition := do
  let n ← a.numbering.toOption
  let source ← n.number? t.source
  let successor ← (renumber n t.successor).toOption
  return ⟨⟨source⟩, t.action, successor⟩

/-- The transitions that have been written, newest first, after one more call. -/
def Call.record (a : Automaton) (c : Call) (written : List Transition) : List Transition :=
  match c, (c.perform a).1 with
  | addTransition source action successor, .ok _ => ⟨source, action, successor⟩ :: written
  | canonicalize, .ok _ => written.filterMap a.renumbered?
  | _, _ => written

/-- Where the newest transition of a state and an action leads. -/
def lastWritten (written : List Transition) (state : StateId) (action : ActionId) :
    Option Successor :=
  (written.find? fun t => t.source = state ∧ t.action = action).map (·.successor)

/-- An automaton and the transitions that have been written to it, newest first. -/
structure History where
  automaton : Automaton
  written : List Transition

namespace History

/-- One more call. -/
def after (h : History) (c : Call) : History :=
  ⟨(c.perform h.automaton).2, c.record h.automaton h.written⟩

/-- Calls on a new automaton, those that meet a fault among them. -/
def run (t : ActionTable) (calls : List Call) : History := calls.foldl after ⟨ofTable t, []⟩

/-- The automaton is well-formed and holds what has been written last. -/
structure Faithful (t : ActionTable) (h : History) : Prop where
  table_eq : h.automaton.table = t
  wellFormed : h.automaton.WellFormed
  next_eq : ∀ state action, h.automaton.next state action = lastWritten h.written state action

end History

variable {t : ActionTable} {h : History} {written : List Transition} {step : Transition}

theorem lastWritten_cons : lastWritten (step :: written) state action =
    if step.source = state ∧ step.action = action then some step.successor
    else lastWritten written state action := by
  rw [lastWritten, List.find?_cons]
  by_cases hmatch : step.source = state ∧ step.action = action
  · rw [if_pos hmatch, decide_eq_true hmatch]
    rfl
  · rw [if_neg hmatch, decide_eq_false hmatch]
    rfl

theorem next_connected (hsource : source.index < a.stateCount) :
    (a.connected source action successor).next state id =
      if source = state ∧ action = id then some successor else a.next state id := by
  rw [next, out_connected hsource]
  by_cases hstate : state = source
  · rw [if_pos hstate, Outgoing.find?_connect, hstate]
    by_cases hid : id = action
    · simp [hid]
    · rw [if_neg hid, if_neg fun h => hid h.2.symm]
      rfl
  · rw [if_neg hstate, if_neg fun h => hstate h.1.symm]
    rfl

/-! ### Renumbering what has been written -/

theorem toOption_renumber_eq_some_iff :
    (renumber ⟨a.order⟩ s).toOption = some successor ↔
      (∀ q, s = .state q → q ∈ a.order) ∧ successor = s.rename a.place := by
  cases s with
  | terminal => simp [renumber, Successor.rename, Except.toOption, eq_comm]
  | state q =>
    by_cases hq : q ∈ a.order
    · rw [renumber, number_eq hq]
      simp [Except.map, Except.toOption, Successor.rename, place, hq, eq_comm]
    · have hnone : Numbering.number? ⟨a.order⟩ q = none := List.idxOf?_eq_none_iff.2 hq
      rw [renumber, Numbering.number, hnone]
      simp [Except.map, Except.toOption, hq]

theorem renumbered?_eq_some_iff (ha : a.WellFormed) {t t' : Transition} :
    a.renumbered? t = some t' ↔
      t.source ∈ a.order ∧ (∀ q, t.successor = .state q → q ∈ a.order) ∧
        t' = ⟨a.place t.source, t.action, t.successor.rename a.place⟩ := by
  rw [renumbered?, numbering_eq ha]
  show (Numbering.number? ⟨a.order⟩ t.source).bind (fun k =>
    (renumber ⟨a.order⟩ t.successor).toOption.bind fun s =>
      some (⟨⟨k⟩, t.action, s⟩ : Transition)) = _ ↔ _
  by_cases hsource : t.source ∈ a.order
  · rw [Numbering.number?, idxOf?_eq_some hsource, Option.bind_some, Option.bind_eq_some_iff,
      and_iff_right hsource]
    simp only [toOption_renumber_eq_some_iff, Option.some.injEq, and_assoc]
    constructor
    · rintro ⟨_, hs, rfl, rfl⟩
      exact ⟨hs, rfl⟩
    · rintro ⟨hs, rfl⟩
      exact ⟨_, hs, rfl, rfl⟩
  · have hnone : Numbering.number? ⟨a.order⟩ t.source = none := List.idxOf?_eq_none_iff.2 hsource
    rw [hnone]
    exact iff_of_false (by simp) fun h => hsource h.1

/-- At the place of a state stands what has been written last for it, if that leads to a place. -/
theorem lastWritten_renumbered (ha : a.WellFormed) (hstate : state ∈ a.order)
    (hplaced : ∀ q, lastWritten written state id = some (.state q) → q ∈ a.order) :
    lastWritten (written.filterMap a.renumbered?) (a.place state) id =
      (lastWritten written state id).map (Successor.rename a.place) := by
  -- on what has been written, the newest first
  induction written with
  | nil => rfl
  | cons step written ih =>
    rw [lastWritten_cons] at hplaced ⊢
    by_cases hmatch : step.source = state ∧ step.action = id
    · rw [if_pos hmatch] at hplaced ⊢
      have hstep : a.renumbered? step =
          some ⟨a.place step.source, step.action, step.successor.rename a.place⟩ :=
        (renumbered?_eq_some_iff ha).2
          ⟨hmatch.1 ▸ hstate, fun q hq => hplaced q (congrArg some hq), rfl⟩
      rw [List.filterMap_cons_some hstep, lastWritten_cons, hmatch.1, hmatch.2,
        if_pos ⟨rfl, rfl⟩]
      rfl
    · rw [if_neg hmatch] at hplaced ⊢
      cases hstep : a.renumbered? step with
      | none =>
        rw [List.filterMap_cons_none hstep]
        exact ih hplaced
      | some step' =>
        -- places are told apart, so the renumbered one does not match either
        obtain ⟨hsource, -, rfl⟩ := (renumbered?_eq_some_iff ha).1 hstep
        rw [List.filterMap_cons_some hstep, lastWritten_cons, if_neg, ih hplaced]
        exact fun h => hmatch ⟨(place_inj hsource).1 h.1, h.2⟩

/-- Nothing is left for states that are no places. -/
theorem lastWritten_renumbered_eq_none (ha : a.WellFormed) (hstate : a.order.length ≤ state.index) :
    lastWritten (written.filterMap a.renumbered?) state id = none := by
  rw [lastWritten, Option.map_eq_none_iff, List.find?_eq_none]
  intro step hstep hmatch
  obtain ⟨step, -, hrenumbered⟩ := List.mem_filterMap.1 hstep
  obtain ⟨hsource, -, rfl⟩ := (renumbered?_eq_some_iff ha).1 hrenumbered
  have hplace : a.place step.source = state := (of_decide_eq_true hmatch).1
  have hlt : a.order.idxOf step.source < a.order.length := List.idxOf_lt_length_iff.2 hsource
  rw [← hplace] at hstate
  exact Nat.not_lt.2 hstate hlt

/-! ### All calls -/

namespace History

theorem faithful_new (t : ActionTable) : Faithful t ⟨ofTable t, []⟩ where
  table_eq := rfl
  wellFormed := wellFormed_ofTable t
  next_eq state action := by
    rw [next, out_ofTable]
    rfl

theorem Faithful.addState (hf : h.Faithful t) : Faithful t ⟨h.automaton.addState.2, h.written⟩ where
  table_eq := hf.table_eq
  wellFormed := wellFormed_addState hf.wellFormed
  next_eq state action := by
    rw [next, out_addState]
    exact hf.next_eq state action

theorem Faithful.addTransition (hf : h.Faithful t)
    (hok : h.automaton.addTransition source action successor = .ok (replaced, a')) :
    Faithful t ⟨a', ⟨source, action, successor⟩ :: h.written⟩ := by
  obtain ⟨hid, hs, hsource, -, rfl⟩ := addTransition_eq_ok_iff.1 hok
  refine ⟨hf.table_eq, wellFormed_connected hf.wellFormed hid hs hsource, fun state id => ?_⟩
  rw [lastWritten_cons, ← hf.next_eq]
  exact next_connected hsource

theorem Faithful.canonicalize (hf : h.Faithful t) :
    Faithful t ⟨h.automaton.canonical, h.written.filterMap h.automaton.renumbered?⟩ := by
  have ha := hf.wellFormed
  refine ⟨hf.table_eq, wellFormed_canonical ha, fun state id => ?_⟩
  rcases Nat.lt_or_ge state.index h.automaton.order.length with hlt | hge
  · -- a canonical state is the place of a state, which is entered by places only
    obtain ⟨q, hq, rfl⟩ := exists_place_eq hlt
    rw [lastWritten_renumbered ha hq, ← hf.next_eq]
    · exact next_canonical ha hq
    · intro p hp
      rw [← hf.next_eq] at hp
      exact mem_order_of_next ha hq hp
  · -- there is no such state any more
    have hnone : h.automaton.canonical.outgoing? state = none := by
      refine Array.getElem?_eq_none ?_
      rw [← stateCount_canonical] at hge
      exact hge
    rw [lastWritten_renumbered_eq_none ha hge, next, out, hnone]
    rfl

theorem after_addTransition : h.after (.addTransition source action successor) =
    match h.automaton.addTransition source action successor with
    | .ok (_, a') => ⟨a', ⟨source, action, successor⟩ :: h.written⟩
    | .error _ => h := by
  -- the record looks at the answer, so both are rewritten where they stand side by side
  unfold after Call.record
  have hperform : (Call.addTransition source action successor).perform h.automaton = _ := connect_eq
  cases hresult : h.automaton.addTransition source action successor with
  | ok result =>
    rw [hresult] at hperform
    simp only [hperform]
  | error f =>
    rw [hresult] at hperform
    simp only [hperform]

theorem after_canonicalize (ha : h.automaton.WellFormed) : h.after .canonicalize =
    ⟨h.automaton.canonical, h.written.filterMap h.automaton.renumbered?⟩ := by
  unfold after Call.record
  have hperform : Call.canonicalize.perform h.automaton = (.ok (), h.automaton.canonical) := by
    rw [Call.perform, Session.ask_bind_ok (canonicalize_eq ha)]
    rfl
  simp only [hperform]

/-- Every call keeps the automaton well-formed, and what has been written. -/
theorem Faithful.after (hf : h.Faithful t) (c : Call) : (h.after c).Faithful t := by
  cases c with
  | addState => exact hf.addState
  | addTransition source action successor =>
    rw [after_addTransition]
    cases hresult : h.automaton.addTransition source action successor with
    | ok result => exact hf.addTransition hresult
    | error f => exact hf
  | canonicalize =>
    rw [after_canonicalize hf.wellFormed]
    exact hf.canonicalize
  | successor? | hasTransitions | transitions | isVarargsApplicable | numbering | dump
  | exported => exact hf

theorem faithful_run (t : ActionTable) (calls : List Call) : (run t calls).Faithful t :=
  List.foldlRecOn calls after (faithful_new t) fun _ hf c _ => hf.after c

end History

/-- A call that meets a fault leaves the automaton as it was. After any calls on a new automaton
each state holds its actions once, all of them actions of the table, each with the successor that
was written last, which exists; and transitions, canonical numbers, canonical automaton, dumps and
export are found without a fault. -/
theorem calls_sound :
    (∀ (a : Automaton) (c : Call) f, (c.perform a).1 = .error f → (c.perform a).2 = a) ∧
    ∀ (t : ActionTable) (calls : List Call) a written, History.run t calls = ⟨a, written⟩ →
      a.table = t ∧ a.initial ∈ a.stateIds ∧
      (∀ state ∈ a.stateIds, ∃ out steps, a.outgoing state = .ok out ∧
        a.transitions state = .ok steps ∧ (out.map (·.1)).Nodup ∧
        (∀ id s, (id, s) ∈ out → id ∈ t.ids ∧ a.checkSuccessor s = .ok ()) ∧
        ∀ id s, (id, s) ∈ out ↔ lastWritten written state id = some s) ∧
      (∃ n, a.numbering = .ok n) ∧ (∃ c, a.canonicalize = .ok c) ∧
      (∀ p, ∃ text, a.dump p = .ok text) ∧ ∃ e, a.exported = .ok e := by
  refine ⟨fun a c f => perform_of_error, fun t calls a written hrun => ?_⟩
  have hf := hrun ▸ History.faithful_run t calls
  have ha : a.WellFormed := hf.wellFormed
  refine ⟨hf.table_eq, mem_stateIds.2 ha.initial, fun state hstate => ?_, ⟨_, numbering_eq ha⟩,
    ⟨_, canonicalize_eq ha⟩, exists_dump ha, exists_exported ha⟩
  have hlt := mem_stateIds.1 hstate
  -- what is stored for a state is what is found there, and that has been written last
  refine ⟨a.out state, _, outgoing_eq hlt, transitions_eq ha hlt, ha.nodup state,
    fun id s hmem => ?_, fun id s => ?_⟩
  · have hnext := ha.next_eq_some_iff.2 hmem
    exact ⟨hf.table_eq ▸ ha.mem_ids_of_next hnext,
      checkSuccessor_eq_ok_iff.2 (ha.exists_of_next hnext)⟩
  · rw [← hf.next_eq]
    exact ha.next_eq_some_iff.symm

/-- Calls in any order, some of them with handles of nothing. -/
def interleaved : List Call := [.addState, .addState, .addTransition ⟨0⟩ ⟨0⟩ (.state ⟨2⟩),
  -- no such action, no such target, no such source
  .addTransition ⟨0⟩ ⟨5⟩ .terminal, .addTransition ⟨0⟩ ⟨1⟩ (.state ⟨9⟩),
  .addTransition ⟨7⟩ ⟨1⟩ .terminal,
  -- replaced by the one behind it
  .addTransition ⟨2⟩ ⟨1⟩ (.state ⟨0⟩), .addTransition ⟨2⟩ ⟨1⟩ .terminal,
  .addTransition ⟨1⟩ ⟨0⟩ (.state ⟨2⟩), .successor? ⟨4⟩ ⟨0⟩,
  -- drops the second state and moves the third to its place
  .canonicalize, .addTransition ⟨1⟩ ⟨0⟩ (.state ⟨0⟩), .addTransition ⟨2⟩ ⟨0⟩ .terminal]

theorem calls_sound_interleaved :
    let call : Call := .addTransition ⟨0⟩ ⟨1⟩ (.state ⟨9⟩)
    let a : Automaton :=
      ⟨forkActions, #[[(⟨0⟩, .state ⟨1⟩)], [(⟨1⟩, .terminal), (⟨0⟩, .state ⟨0⟩)]], ⟨0⟩⟩
    let written : List Transition := [⟨⟨1⟩, ⟨0⟩, .state ⟨0⟩⟩, ⟨⟨1⟩, ⟨1⟩, .terminal⟩,
      ⟨⟨1⟩, ⟨1⟩, .state ⟨0⟩⟩, ⟨⟨0⟩, ⟨0⟩, .state ⟨1⟩⟩]
    ((call.perform fork).1 = .error (.unknownState ⟨9⟩ 3) ∧ (call.perform fork).2 = fork) ∧
    History.run forkActions interleaved = ⟨a, written⟩ ∧
    (∃ out, a.outgoing ⟨1⟩ = .ok out ∧ (out.map (·.1)).Nodup ∧
      ∀ id s, (id, s) ∈ out ↔ lastWritten written ⟨1⟩ id = some s) ∧
    ∃ e, a.exported = .ok e := by
  intro call a written
  have hfault : (call.perform fork).1 = .error (.unknownState ⟨9⟩ 3) := rfl
  have hrun : History.run forkActions interleaved = ⟨a, written⟩ := rfl
  obtain ⟨hatomic, hsound⟩ := calls_sound
  obtain ⟨-, -, hstates, -, -, -, hexported⟩ := hsound forkActions interleaved a written hrun
  obtain ⟨out, -, hout, -, hnodup, -, hlast⟩ := hstates ⟨1⟩ (by decide)
  exact ⟨⟨hfault, hatomic fork call _ hfault⟩, hrun, ⟨out, hout, hnodup, hlast⟩, hexported⟩

end Automaton
end CallChain
