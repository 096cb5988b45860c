import CallChain.Proofs.Automaton.Building
import CallChain.Proofs.Automaton.Relabelling

/-!
# What exports tell

An export names the states that can be reached by their canonical numbers, and the actions by their
places in the canonical order. So it can be followed without the automaton: a sequence of actions,
told by their places, leads through an export as it leads through the automaton, and where it leads
the same is offered. The dump shows nothing but the export, and the labels of the actions.

* `exported_eq`, `dump_eq_text`: the export and the dump of a well-formed automaton.
* `foldlM_take_position`: sequences of actions.
* `exported_faithful`: both, for automata that are built step by step.
-/

namespace CallChain

/-! ### Reading an export -/

/-- What is told about an action that is offered. -/
structure Offer where
  /-- Its place in the canonical order. -/
  action : Nat
  endsChain : Bool
  varargs : Bool

namespace ExportedAutomaton

variable (e : ExportedAutomaton)

/-- The transitions of the state with a number; none if there is no such state. -/
def out (k : Nat) : List ExportedTransition := (e.states[k]?.map (·.transitions)).getD []

/-- Where an action leads from a state or, without a number, from the end of a chain. -/
def take : Option Nat → Nat → Option (Option Nat)
  | some k, action => ((e.out k).find? (·.action = action)).map (·.successor)
  | none, _ => none

/-- Where a sequence of actions leads from the initial state. -/
def follow (actions : List Nat) : Option (Option Nat) :=
  actions.foldlM e.take (some e.initialState)

/-- What is offered at a state or at the end of a chain. -/
def offers : Option Nat → List Offer
  | some k => (e.out k).map fun step => ⟨step.action, step.successor.isNone, step.varargs⟩
  | none => []

/-- Numbers and places lead to states and actions, each state has its own number, and its
transitions stand in the order of their actions. -/
structure Sound : Prop where
  initial_lt : e.initialState < e.states.length
  id_eq : ∀ (k : Nat) (s : ExportedState), e.states[k]? = some s → s.id = k
  action_lt : ∀ s ∈ e.states, ∀ step ∈ s.transitions, step.action < e.actions.length
  successor_lt : ∀ s ∈ e.states, ∀ step ∈ s.transitions, ∀ k ∈ step.successor, k < e.states.length
  increasing : ∀ s ∈ e.states, (s.transitions.map (·.action)).Pairwise (· < ·)

end ExportedAutomaton

/-! ### Writing an export -/

section Text

variable (p : Palette) (labels : List String)

/-- A transition; `labels` are those of the actions, by their places. -/
def ExportedTransition.text (step : ExportedTransition) : String :=
  labels.getD step.action "" ++ (if step.varargs then "…" else "") ++ " " ++ p.dim ++ "→" ++
    p.reset ++ " " ++
    match step.successor with
    | some k => Automaton.stateText p k
    | none => p.green ++ "⊤" ++ p.reset

/-- A state and its transitions. -/
def ExportedState.line (s : ExportedState) : String :=
  if s.transitions.isEmpty then
    Automaton.stateText p s.id ++ ": " ++ p.dim ++ "∅" ++ p.reset ++ "\n"
  else
    Automaton.stateText p s.id ++ ": " ++ ", ".intercalate (s.transitions.map (·.text p labels)) ++
      "\n"

/-- All states, a line each. -/
def ExportedAutomaton.text (e : ExportedAutomaton) : String :=
  String.join (e.states.map (·.line p labels))

end Text

namespace Automaton

variable {a : Automaton} {state target : StateId} {id : ActionId} {s : Successor}
  {t : Transition}

/-! ### The export of an automaton -/

section View

variable (a)

/-- What is offered at a state or at the end of a chain. -/
def offered : Successor → Except Fault (List Offer)
  | .state state => do
    (← a.transitions state).mapM fun step => do
      return ⟨← a.actionIndex step.action, step.successor = .terminal,
        ← a.isVarargsApplicable step⟩
  | .terminal => .ok []

/-- The number of a state; the end of a chain has none. -/
def position (s : Successor) : Option Nat := s.state?.map a.order.idxOf

/-- A transition as it is exported. -/
def exportedStep (step : Transition) : ExportedTransition :=
  ⟨a.table.order.idxOf step.action, a.position step.successor, a.isRepeatable step⟩

/-- The states as they are exported. -/
def exportedStates : List ExportedState :=
  a.order.zipIdx.map fun (state, k) => ⟨k, (a.inActionOrder state (a.out state)).map a.exportedStep⟩

/-- The export with the actions that it lists. -/
def exportWith (actions : List ExportedAction) : ExportedAutomaton := ⟨0, actions, a.exportedStates⟩

end View

theorem actionIndex_eq_ok_iff {k : Nat} :
    a.actionIndex id = .ok k ↔ id ∈ a.table.order ∧ k = a.table.order.idxOf id := by
  rw [actionIndex]
  by_cases hid : id ∈ a.table.order
  · rw [idxOf?_eq_some hid, Except.ok.injEq, eq_comm, and_iff_right hid]
  · rw [List.idxOf?_eq_none_iff.2 hid]
    exact iff_of_false (by simp) fun h => hid h.1

/-- The number of a successor that has one. -/
theorem successor_eq_position (hs : ∀ q, s = .state q → q ∈ a.order) :
    Numbering.successor ⟨a.order⟩ s = .ok (a.position s) := by
  cases s with
  | state q =>
    rw [Numbering.successor, number_eq (hs q rfl)]
    rfl
  | terminal => rfl

section WellFormed

variable (ha : a.WellFormed)

include ha

theorem action_mem_order (ht : t ∈ a.inActionOrder state (a.out state)) :
    t.action ∈ a.table.order :=
  ActionTable.mem_order.2 (ha.mem_ids_of_next (next_of_mem_inActionOrder ha ht))

theorem actionIndex_eq (ht : t ∈ a.inActionOrder state (a.out state)) :
    a.actionIndex t.action = .ok (a.table.order.idxOf t.action) :=
  actionIndex_eq_ok_iff.2 ⟨action_mem_order ha ht, rfl⟩

/-- The mark of a transition of a state. -/
theorem isVarargsApplicable_eq (ht : t ∈ a.inActionOrder state (a.out state)) :
    a.isVarargsApplicable t = .ok (a.isRepeatable t) := by
  refine isVarargsApplicable_eq_isRepeatable ha ?_
  rw [(mem_inActionOrder.1 ht).1]
  exact next_of_mem_inActionOrder ha ht

theorem mem_order_of_mem_inActionOrder (hq : state ∈ a.order)
    (ht : t ∈ a.inActionOrder state (a.out state)) (q : StateId) (hs : t.successor = .state q) :
    q ∈ a.order :=
  mem_order_of_next ha hq (hs ▸ next_of_mem_inActionOrder ha ht)

theorem exportTransition_eq (hq : state ∈ a.order)
    (ht : t ∈ a.inActionOrder state (a.out state)) :
    a.exportTransition ⟨a.order⟩ t = .ok (a.exportedStep t) := by
  have hsuccessor := successor_eq_position (mem_order_of_mem_inActionOrder ha hq ht)
  rw [exportTransition, actionIndex_eq ha ht, isVarargsApplicable_eq ha ht, hsuccessor]
  rfl

/-- The export of a well-formed automaton. -/
theorem exported_eq : ∃ actions,
    a.table.order.mapM (fun id => (a.table.get id).map Action.exported) = .ok actions ∧
      a.exported = .ok (a.exportWith actions) := by
  obtain ⟨actions, hactions⟩ : ∃ actions,
      a.table.order.mapM (fun id => (a.table.get id).map Action.exported) = .ok actions := by
    refine exists_mapM_eq_ok fun id hid => ?_
    obtain ⟨action, hget⟩ := ActionTable.mem_ids.1 (ActionTable.mem_order.1 hid)
    rw [ActionTable.get, hget]
    exact ⟨_, rfl⟩
  have hstates : a.order.zipIdx.mapM (a.exportState ⟨a.order⟩) = .ok a.exportedStates := by
    refine mapM_eq_ok fun entry hentry => ?_
    have hq := List.fst_mem_of_mem_zipIdx hentry
    rw [exportState, transitions_eq ha (index_lt_of_mem_order ha hq)]
    show Except.map _ (List.mapM _ _) = _
    rw [mapM_eq_ok fun t ht => exportTransition_eq ha hq ht]
    rfl
  refine ⟨actions, hactions, ?_⟩
  rw [exported, numbering_eq ha, hactions]
  show Except.map _ (a.order.zipIdx.mapM _) = _
  rw [hstates]
  rfl

/-- A well-formed automaton has an export. -/
theorem exists_exported : ∃ e, a.exported = .ok e := by
  obtain ⟨actions, -, he⟩ := exported_eq ha
  exact ⟨_, he⟩

/-! ### The dump of an automaton -/

omit ha in
/-- What the actions are called, in canonical order. -/
theorem exists_labels : ∃ labels, a.table.order.mapM a.table.label = .ok labels := by
  refine exists_mapM_eq_ok fun id hid => ?_
  obtain ⟨action, hget⟩ := ActionTable.mem_ids.1 (ActionTable.mem_order.1 hid)
  rw [ActionTable.label, ActionTable.get, hget]
  exact ⟨_, rfl⟩

variable {labels : List String} (hlabels : a.table.order.mapM a.table.label = .ok labels)
  (p : Palette)

include hlabels

theorem transitionText_eq (hq : state ∈ a.order)
    (ht : t ∈ a.inActionOrder state (a.out state)) :
    a.transitionText p ⟨a.order⟩ t = .ok ((a.exportedStep t).text p labels) := by
  have hid := action_mem_order ha ht
  have hsuccessor : successorText p ⟨a.order⟩ t.successor =
      .ok (match a.position t.successor with
        | some k => stateText p k
        | none => p.green ++ "⊤" ++ p.reset) := by
    cases hs : t.successor with
    | terminal => rfl
    | state target =>
      rw [successorText, number_eq (mem_order_of_mem_inActionOrder ha hq ht target hs)]
      rfl
  rw [transitionText, eq_ok_getD_idxOf hlabels hid "", isVarargsApplicable_eq ha ht, hsuccessor]
  rfl

theorem stateLine_eq {k : Nat} (hq : state ∈ a.order) :
    a.stateLine p ⟨a.order⟩ (state, k) =
      .ok (ExportedState.line p labels
        ⟨k, (a.inActionOrder state (a.out state)).map a.exportedStep⟩) := by
  rw [stateLine, transitions_eq ha (index_lt_of_mem_order ha hq)]
  show (if _ then _ else _) = _
  rw [mapM_eq_ok fun t ht => transitionText_eq ha hlabels p hq ht, ExportedState.line,
    List.isEmpty_map, List.map_map]
  split <;> rfl

/-- The dump is written from the export and the labels. -/
theorem dump_eq_text (actions : List ExportedAction) :
    a.dump p = .ok ((a.exportWith actions).text p labels) := by
  rw [dump, numbering_eq ha]
  show Except.map _ (a.order.zipIdx.mapM _) = _
  rw [mapM_eq_ok (g := fun entry => ExportedState.line p labels
    ⟨entry.2, (a.inActionOrder entry.1 (a.out entry.1)).map a.exportedStep⟩) fun entry hentry =>
      stateLine_eq ha hlabels p (List.fst_mem_of_mem_zipIdx hentry),
    ExportedAutomaton.text, exportWith, exportedStates, List.map_map]
  rfl

omit hlabels in
/-- A well-formed automaton has a dump. -/
theorem exists_dump : ∃ text, a.dump p = .ok text := by
  obtain ⟨labels, hlabels⟩ := exists_labels (a := a)
  exact ⟨_, dump_eq_text ha hlabels p []⟩

end WellFormed

/-! ### Following an export -/

variable {actions : List ExportedAction}

theorem length_exportedStates : a.exportedStates.length = a.order.length := by
  rw [exportedStates, List.length_map, List.length_zipIdx]

theorem getElem?_exportedStates (k : Nat) : a.exportedStates[k]? =
    a.order[k]?.map fun q => ⟨k, (a.inActionOrder q (a.out q)).map a.exportedStep⟩ := by
  rw [exportedStates, List.getElem?_map, List.getElem?_zipIdx, Option.map_map, Nat.zero_add]
  rfl

theorem out_exportWith (hq : state ∈ a.order) : (a.exportWith actions).out (a.order.idxOf state) =
    (a.inActionOrder state (a.out state)).map a.exportedStep := by
  show (a.exportedStates[a.order.idxOf state]?.map _).getD [] = _
  rw [getElem?_exportedStates, List.getElem?_idxOf hq]
  rfl

theorem mem_exportedStates {row : ExportedState} (hrow : row ∈ a.exportedStates) :
    ∃ q ∈ a.order, row.transitions = (a.inActionOrder q (a.out q)).map a.exportedStep := by
  obtain ⟨entry, hentry, rfl⟩ := List.mem_map.1 hrow
  exact ⟨entry.1, List.fst_mem_of_mem_zipIdx hentry, rfl⟩

section WellFormed

variable (ha : a.WellFormed)

include ha

/-- The actions of a state stand in canonical order, each once. -/
theorem pairwise_idxOf_action :
    (a.inActionOrder state (a.out state)).Pairwise fun s t =>
      a.table.order.idxOf s.action < a.table.order.idxOf t.action := by
  have hkeys : ((a.sorted state).map (·.1)).Nodup :=
    (sorted_perm.map (·.1)).nodup_iff.2 (ha.nodup state)
  rw [sorted, List.map_map, List.Nodup, List.pairwise_map] at hkeys
  refine (pairwise_inActionOrder.and hkeys).imp_of_mem fun hs _ hle => ?_
  refine Nat.lt_of_le_of_ne (isLE_compare_iff.1 hle.1) fun heq => ?_
  exact hle.2 ((List.idxOf_inj (action_mem_order ha hs)).1 heq)

/-- Numbers and places are those of states and actions. -/
theorem sound_exportWith (hlength : actions.length = a.table.order.length) :
    (a.exportWith actions).Sound where
  initial_lt := by
    show 0 < a.exportedStates.length
    rw [length_exportedStates]
    exact List.length_pos_of_mem initial_mem_order
  id_eq k row hrow := by
    have hrow : a.exportedStates[k]? = some row := hrow
    rw [getElem?_exportedStates] at hrow
    obtain ⟨q, -, rfl⟩ := Option.map_eq_some_iff.1 hrow
    rfl
  action_lt row hrow step hstep := by
    obtain ⟨q, -, hq⟩ := mem_exportedStates hrow
    rw [hq] at hstep
    obtain ⟨t, ht, rfl⟩ := List.mem_map.1 hstep
    show a.table.order.idxOf t.action < actions.length
    rw [hlength]
    exact List.idxOf_lt_length_iff.2 (action_mem_order ha ht)
  successor_lt row hrow step hstep k hk := by
    obtain ⟨q, hmem, hq⟩ := mem_exportedStates hrow
    rw [hq] at hstep
    obtain ⟨t, ht, rfl⟩ := List.mem_map.1 hstep
    have hk : a.position t.successor = some k := hk
    cases hs : t.successor with
    | terminal =>
      rw [hs] at hk
      cases hk
    | state target =>
      rw [hs] at hk
      cases hk
      show a.order.idxOf target < a.exportedStates.length
      rw [length_exportedStates, List.idxOf_lt_length_iff]
      exact mem_order_of_mem_inActionOrder ha hmem ht target hs
  increasing row hrow := by
    obtain ⟨q, -, hq⟩ := mem_exportedStates hrow
    rw [hq, List.map_map, List.pairwise_map]
    exact pairwise_idxOf_action ha

/-- An action leads through the export as it leads through the automaton. -/
theorem take_position (hs : ∀ q, s = .state q → q ∈ a.order) (id : ActionId) :
    (a.exportWith actions).take (a.position s) (a.table.order.idxOf id) =
      (a.taken s id).map a.position := by
  cases s with
  | terminal => rfl
  | state q =>
    show (List.find? _ ((a.exportWith actions).out (a.order.idxOf q))).map _ =
      (a.next q id).map a.position
    rw [out_exportWith (hs q rfl), List.find?_map, Option.map_map]
    -- places tell actions apart, so what is found under a place is the action's own transition
    cases hfind : (a.inActionOrder q (a.out q)).find?
        ((fun step => decide (step.action = a.table.order.idxOf id)) ∘ a.exportedStep) with
    | some t =>
      have ht := List.mem_of_find?_eq_some hfind
      have hfound := List.find?_some hfind
      have heq : t.action = id :=
        (List.idxOf_inj (action_mem_order ha ht)).1 (of_decide_eq_true hfound)
      rw [← heq, next_of_mem_inActionOrder ha ht]
      rfl
    | none =>
      cases hnext : a.next q id with
      | none => rfl
      | some s =>
        have ht : (⟨q, id, s⟩ : Transition) ∈ a.inActionOrder q (a.out q) :=
          mem_inActionOrder.2 ⟨rfl, ha.next_eq_some_iff.1 hnext⟩
        exact absurd (decide_eq_true rfl) (List.find?_eq_none.1 hfind _ ht)

/-- A sequence of actions leads through the export as it leads through the automaton. -/
theorem foldlM_take_position (hs : ∀ q, s = .state q → q ∈ a.order) (ids : List ActionId) :
    (ids.map a.table.order.idxOf).foldlM (a.exportWith actions).take (a.position s) =
      (ids.foldlM a.taken s).map a.position := by
  induction ids generalizing s with
  | nil => rfl
  | cons id ids ih =>
    rw [List.map_cons, List.foldlM_cons, List.foldlM_cons, take_position ha hs]
    cases htaken : a.taken s id with
    | none => rfl
    | some s' =>
      -- only states that are numbered are met on the way
      refine ih ?_
      rintro q rfl
      cases s with
      | state o => exact mem_order_of_next ha (hs o rfl) htaken
      | terminal => cases htaken

/-- What is offered at a number is what is offered at its state. -/
theorem offered_eq (hs : ∀ q, s = .state q → q ∈ a.order) :
    a.offered s = .ok ((a.exportWith actions).offers (a.position s)) := by
  cases s with
  | terminal => rfl
  | state q =>
    have hq := hs q rfl
    show _ = Except.ok (((a.exportWith actions).out (a.order.idxOf q)).map _)
    rw [out_exportWith hq, List.map_map, offered, transitions_eq ha (index_lt_of_mem_order ha hq)]
    refine mapM_eq_ok fun t ht => ?_
    have hends : decide (t.successor = .terminal) = (a.position t.successor).isNone := by
      cases t.successor <;> simp [position, Successor.state?]
    rw [actionIndex_eq ha ht, isVarargsApplicable_eq ha ht, hends]
    rfl

omit ha in
/-- Actions of the table have places. -/
theorem mapM_actionIndex_eq {ids : List ActionId} (hids : ∀ id ∈ ids, id ∈ a.table.ids) :
    ids.mapM a.actionIndex = .ok (ids.map a.table.order.idxOf) :=
  mapM_eq_ok fun id hid =>
    actionIndex_eq_ok_iff.2 ⟨ActionTable.mem_order.2 (hids id hid), rfl⟩

/-- Where a sequence of actions leads, the export offers what the automaton offers there. -/
theorem rel_offered_follow (ids : List ActionId) :
    Option.Rel (fun s k => a.offered s = .ok ((a.exportWith actions).offers k))
      (ids.foldlM a.taken (.state a.initial))
      ((a.exportWith actions).follow (ids.map a.table.order.idxOf)) := by
  have hinitial : (some (a.exportWith actions).initialState : Option Nat) =
      a.position (.state a.initial) :=
    congrArg some (StateId.mk.inj place_initial).symm
  have hplaced : ∀ q, Successor.state a.initial = .state q → q ∈ a.order := by
    rintro q ⟨⟩
    exact initial_mem_order
  rw [ExportedAutomaton.follow, hinitial, foldlM_take_position ha hplaced]
  cases hrun : ids.foldlM a.taken (.state a.initial) with
  | none => exact .none
  | some s =>
    refine .some (offered_eq ha ?_)
    rintro q rfl
    exact mem_order_of_foldlM ha initial_mem_order hrun

end WellFormed

/-! ### Automata that are built step by step -/

/-- An export lists the actions in canonical order, and its numbers and places are sound. Every
sequence of actions leads through it as it leads through the automaton, and where it leads the same
actions are offered with the same marks. And the dump is the text of the export. -/
theorem exported_faithful (a : Automaton) (h : a.Built) : ∃ e labels,
    a.exported = .ok e ∧ a.table.order.mapM a.table.label = .ok labels ∧
      a.table.order.mapM (fun id => (a.table.get id).map Action.exported) = .ok e.actions ∧
      e.Sound ∧
      (∀ ids : List ActionId, (∀ id ∈ ids, id ∈ a.table.ids) → ∃ places result,
        ids.mapM a.actionIndex = .ok places ∧ a.chain (.state a.initial) ids = .ok result ∧
          Option.Rel (fun s k => a.offered s = .ok (e.offers k)) result (e.follow places)) ∧
      ∀ p, a.dump p = .ok (e.text p labels) := by
  have ha := h.wellFormed
  obtain ⟨actions, hactions, he⟩ := exported_eq ha
  obtain ⟨labels, hlabels⟩ := exists_labels (a := a)
  have hlength := (forall₂_of_mapM_eq_ok hactions).length_eq
  refine ⟨a.exportWith actions, labels, he, hlabels, hactions, sound_exportWith ha hlength.symm,
    fun ids hids => ?_, fun p => dump_eq_text ha hlabels p actions⟩
  exact ⟨_, _, mapM_actionIndex_eq hids,
    chain_eq ha (show a.Exists (.state a.initial) from ha.initial) ids,
    rel_offered_follow ha ids⟩

/-- Two overloads and the end of the chain, declared against their canonical order. -/
def backwards : ActionTable :=
  ⟨[.ofName "to", ⟨"add", "addInt", ["int"], "void", false, false, true⟩, .ofName "add"],
    [⟨2⟩, ⟨1⟩, ⟨0⟩], by decide, by decide⟩

/-- A state where `add(int)` can be repeated, in front of one that `add()` leads to. -/
def listed : Automaton := ⟨backwards, #[[(⟨0⟩, .terminal), (⟨1⟩, .state ⟨1⟩), (⟨2⟩, .state ⟨2⟩)],
  [(⟨1⟩, .state ⟨1⟩)], [(⟨0⟩, .terminal), (⟨2⟩, .state ⟨0⟩)]], ⟨0⟩⟩

theorem exported_faithful_listed : listed.Built ∧ ∃ e labels, listed.exported = .ok e ∧
    e.states = [⟨0, [⟨0, some 1, false⟩, ⟨1, some 2, true⟩, ⟨2, none, false⟩]⟩,
      ⟨1, [⟨0, some 0, false⟩, ⟨2, none, false⟩]⟩, ⟨2, [⟨1, some 2, true⟩]⟩] ∧ e.Sound ∧
    e.follow [0, 0, 1] = some (some 2) ∧ listed.offered (.state ⟨1⟩) = .ok (e.offers (some 2)) ∧
    ∀ p, listed.dump p = .ok (e.text p labels) := by
  have hbuilt : listed.Built :=
    (Built.ofTable backwards).addState.addState.connectAll
      [⟨⟨0⟩, ⟨0⟩, .terminal⟩, ⟨⟨0⟩, ⟨1⟩, .state ⟨1⟩⟩, ⟨⟨0⟩, ⟨2⟩, .state ⟨2⟩⟩,
        ⟨⟨1⟩, ⟨1⟩, .state ⟨1⟩⟩, ⟨⟨2⟩, ⟨0⟩, .terminal⟩, ⟨⟨2⟩, ⟨2⟩, .state ⟨0⟩⟩] rfl
  obtain ⟨e, labels, he, -, -, hsound, hfollow, hdump⟩ := exported_faithful listed hbuilt
  obtain ⟨places, result, hplaces, hresult, hrel⟩ := hfollow [⟨2⟩, ⟨2⟩, ⟨1⟩] (by decide)
  have hexport : listed.exported = .ok ⟨0, backwards.order.map fun id =>
      ((backwards.get? id).getD (.ofName "")).exported,
    [⟨0, [⟨0, some 1, false⟩, ⟨1, some 2, true⟩, ⟨2, none, false⟩]⟩,
      ⟨1, [⟨0, some 0, false⟩, ⟨2, none, false⟩]⟩, ⟨2, [⟨1, some 2, true⟩]⟩]⟩ := rfl
  cases hexport.symm.trans he
  cases hplaces
  cases hresult
  cases hrel with
  | some hoffered => exact ⟨hbuilt, _, labels, he, rfl, hsound, rfl, hoffered, hdump⟩

end Automaton

end CallChain
