import CallChain.Finite.Access
import CallChain.Proofs.Finite.Fragment
import CallChain.Proofs.Finite.Language
import CallChain.Proofs.Lists

/-!
# Access within bounds

Where states and nodes are below the sizes of their tables and symbols belong to the alphabet, a
look-up finds what the automaton says, and a change is made. From these lemmas follow what whole
loops of changes make: transitions that are written one after the other (`Dfa.Rewired`) and nodes
that get their steps one after the other (`Nfa.grow`).

* `Dfa.transition_eq`, `Dfa.setTransition_eq`: one place of a transition table.
* `Dfa.exists_foldlM_rewired`: a loop over places of a transition table.
* `Nfa.makeSequence_eq`, `Nfa.makeStar_eq` and the others: the combinators, with all look-ups.
* `Nfa.foldlM_fill`: a loop over nodes.
-/

namespace CallChain

attribute [ext] Row

namespace Dfa

variable {d e : Dfa} {q q' s s' : Nat} {target : Option Nat}

/-! ### Look-ups -/

theorem transition_eq (hd : d.WellFormed) (hq : q < d.size) (hs : s < d.alphabet) :
    d.transition q s = .ok (d.next q s) := by
  rw [transition, if_neg (Nat.not_le.2 hs), hd.getElem?_targets hq hs]

theorem endsAt_eq (hq : q < d.size) : d.endsAt q = .ok (d.isAccepting q) := by
  have hrow : d.rows[q]? = some d.rows[q] := Array.getElem?_eq_getElem hq
  rw [endsAt, readAt_of_getElem? hrow, isAccepting, hrow]
  rfl

theorem transitions_eq (hq : q < d.size) : d.transitions q = .ok (d.edges q) := by
  rw [transitions, readAt_eq hq]
  rfl

/-! ### Single transitions -/

@[simp] theorem size_setTarget : (d.setTarget q s target).size = d.size := by
  simp [setTarget, size]

@[simp] theorem initial_setTarget : (d.setTarget q s target).initial = d.initial := rfl

@[simp] theorem alphabet_setTarget : (d.setTarget q s target).alphabet = d.alphabet := rfl

theorem targets_setTarget : (d.setTarget q s target).targets q' =
    if q' = q then (d.targets q).set s target else d.targets q' := by
  unfold targets setTarget
  rw [Array.getElem?_modify]
  by_cases hq : q = q'
  · subst hq
    rw [if_pos rfl, if_pos rfl]
    cases d.rows[q]? <;> rfl
  · rw [if_neg hq, if_neg (Ne.symm hq)]

@[simp] theorem isAccepting_setTarget :
    (d.setTarget q s target).isAccepting q' = d.isAccepting q' := by
  unfold isAccepting setTarget
  rw [Array.getElem?_modify]
  split
  · cases d.rows[q']? <;> rfl
  · rfl

/-- An automaton with a new transition is as well-formed as it was. -/
theorem WellFormed.setTarget (hd : d.WellFormed) (ht : ∀ t ∈ target, t < d.size) :
    (d.setTarget q s target).WellFormed where
  initial_lt := by
    rw [initial_setTarget, size_setTarget]
    exact hd.initial_lt
  length_targets p hp := by
    rw [size_setTarget] at hp
    rw [targets_setTarget, alphabet_setTarget]
    split
    · rename_i heq
      rw [List.length_set, ← heq]
      exact hd.length_targets p hp
    · exact hd.length_targets p hp
  next_lt := by
    intro p r u hu
    rw [size_setTarget]
    rw [next_eq_some_iff, targets_setTarget] at hu
    split at hu
    · rw [List.getElem?_set] at hu
      split at hu
      · split at hu
        · exact ht u (Option.some.inj hu)
        · cases hu
      · exact hd.next_lt (next_eq_some_iff.2 hu)
    · exact hd.next_lt (next_eq_some_iff.2 hu)

theorem next_setTarget (hd : d.WellFormed) (hq : q < d.size) (hs : s < d.alphabet) :
    (d.setTarget q s target).next q' s' =
      if q' = q ∧ s' = s then target else d.next q' s' := by
  have hlength : s < (d.targets q).length := by
    rw [hd.length_targets q hq]
    exact hs
  unfold next
  rw [targets_setTarget]
  by_cases hq' : q' = q
  · subst hq'
    rw [if_pos rfl, List.getElem?_set]
    by_cases hs' : s = s'
    · subst hs'
      rw [if_pos rfl, if_pos hlength, if_pos ⟨rfl, rfl⟩]
      rfl
    · rw [if_neg hs', if_neg fun h => hs' h.2.symm]
  · rw [if_neg hq', if_neg fun h => hq' h.1]

theorem setTransition_eq (hd : d.WellFormed) (hq : q < d.size) (hs : s < d.alphabet) :
    d.setTransition q s target = .ok (d.setTarget q s target) := by
  rw [setTransition, transition_eq hd hq hs]
  rfl

/-! ### Further states -/

@[simp] theorem size_addState (accepting : Bool) : (d.addState accepting).2.size = d.size + 1 := by
  simp [addState, size]

theorem rows_addState (accepting : Bool) : (d.addState accepting).2.rows[q]? =
    if q = d.size then some (blankRow d.alphabet accepting) else d.rows[q]? :=
  Array.getElem?_push

theorem isAccepting_addState (accepting : Bool) : (d.addState accepting).2.isAccepting q =
    if q = d.size then accepting else d.isAccepting q := by
  unfold isAccepting
  rw [rows_addState]
  split <;> rfl

/-- A new state has no transitions. -/
theorem next_addState (accepting : Bool) : (d.addState accepting).2.next q s = d.next q s := by
  unfold next targets
  rw [rows_addState]
  split
  next hq =>
    have hnone : d.rows[q]? = none := Array.getElem?_eq_none (Nat.le_of_eq hq.symm)
    rw [hnone]
    simp only [blankRow, Option.map_some, Option.getD_some, List.getElem?_replicate]
    split <;> rfl
  next => rfl

theorem WellFormed.addState (hd : d.WellFormed) (accepting : Bool) :
    (d.addState accepting).2.WellFormed where
  initial_lt := by
    rw [size_addState]
    exact Nat.lt_succ_of_lt hd.initial_lt
  length_targets p hp := by
    rw [size_addState] at hp
    rw [targets, rows_addState]
    split
    next => exact List.length_replicate
    next hne => exact hd.length_targets p (Nat.lt_of_le_of_ne (Nat.le_of_lt_succ hp) hne)
  next_lt := by
    intro p s t ht
    rw [next_addState] at ht
    rw [size_addState]
    exact Nat.lt_succ_of_lt (hd.next_lt ht)

/-! ### Loops over transitions -/

/-- The second automaton has the states of the first one. Its transitions are what `change` makes of
those of the first one at the places that are touched, and the same elsewhere. -/
structure Rewired (touched : Nat → Nat → Prop) (change : Nat → Nat → Option Nat → Option Nat)
    (d e : Dfa) : Prop extends e.WellFormed where
  alphabet_eq : e.alphabet = d.alphabet
  size_eq : e.size = d.size
  initial_eq : e.initial = d.initial
  isAccepting_eq : ∀ q, e.isAccepting q = d.isAccepting q
  next_touched : ∀ q s, touched q s → e.next q s = change q s (d.next q s)
  next_kept : ∀ q s, ¬ touched q s → e.next q s = d.next q s

section Rewiring

variable {change : Nat → Nat → Option Nat → Option Nat} {touched touched' : Nat → Nat → Prop}

theorem Rewired.refl (hd : d.WellFormed) (hnone : ∀ q s, ¬ touched q s) :
    Rewired touched change d d :=
  ⟨hd, rfl, rfl, rfl, fun _ => rfl, fun q s h => absurd h (hnone q s), fun _ _ _ => rfl⟩

/-- A place may be touched twice, if the second change leaves what the first one makes. -/
theorem Rewired.trans {e' : Dfa} (hchange : ∀ q s t, change q s (change q s t) = change q s t)
    (h : Rewired touched change d e) (h' : Rewired touched' change e e') :
    Rewired (fun q s => touched q s ∨ touched' q s) change d e' where
  toWellFormed := h'.toWellFormed
  alphabet_eq := h'.alphabet_eq.trans h.alphabet_eq
  size_eq := h'.size_eq.trans h.size_eq
  initial_eq := h'.initial_eq.trans h.initial_eq
  isAccepting_eq q := (h'.isAccepting_eq q).trans (h.isAccepting_eq q)
  next_touched q s hqs := by
    by_cases hlast : touched' q s
    · rw [h'.next_touched q s hlast]
      by_cases hfirst : touched q s
      · rw [h.next_touched q s hfirst, hchange]
      · rw [h.next_kept q s hfirst]
    · rw [h'.next_kept q s hlast, h.next_touched q s (hqs.resolve_right hlast)]
  next_kept q s hqs := by
    rw [h'.next_kept q s fun h => hqs (.inr h), h.next_kept q s fun h => hqs (.inl h)]

theorem Rewired.congr (h : Rewired touched change d e) (hiff : ∀ q s, touched q s ↔ touched' q s) :
    Rewired touched' change d e :=
  { h with
    next_touched := fun q s hqs => h.next_touched q s ((hiff q s).2 hqs)
    next_kept := fun q s hqs => h.next_kept q s fun hs => hqs ((hiff q s).1 hs) }

variable (change) in
/-- A loop touches what its steps touch. -/
theorem exists_foldlM_rewired {α : Type} (step : Dfa → α → Except Fault Dfa)
    (touched : α → Nat → Nat → Prop) (xs : List α)
    (hchange : ∀ q s t, change q s (change q s t) = change q s t) (hd : d.WellFormed)
    (hstep : ∀ d' : Dfa, d'.WellFormed → d'.alphabet = d.alphabet → d'.size = d.size → ∀ x ∈ xs,
      ∃ e, step d' x = .ok e ∧ Rewired (touched x) change d' e) :
    ∃ e, xs.foldlM step d = .ok e ∧
      Rewired (fun q s => ∃ x ∈ xs, touched x q s) change d e := by
  induction xs generalizing d with
  | nil => exact ⟨d, rfl, .refl hd fun _ _ ⟨_, hx, _⟩ => List.not_mem_nil hx⟩
  | cons x xs ih =>
    obtain ⟨d', hfirst, hrewired⟩ := hstep d hd rfl rfl x List.mem_cons_self
    obtain ⟨e, hrest, hrewired'⟩ := ih hrewired.toWellFormed fun d'' hd'' halphabet hsize y hy =>
      hstep d'' hd'' (halphabet.trans hrewired.alphabet_eq) (hsize.trans hrewired.size_eq) y
        (List.mem_cons_of_mem x hy)
    refine ⟨e, ?_, (hrewired.trans hchange hrewired').congr fun q s => ?_⟩
    · rw [List.foldlM_cons, hfirst]
      exact hrest
    · simp only [List.exists_mem_cons_iff]

variable (change) in
theorem rewired_setTarget (hd : d.WellFormed) (hq : q < d.size) (hs : s < d.alphabet)
    (ht : ∀ t ∈ change q s (d.next q s), t < d.size) :
    Rewired (fun q' s' => q' = q ∧ s' = s) change d
      (d.setTarget q s (change q s (d.next q s))) where
  toWellFormed := hd.setTarget ht
  alphabet_eq := rfl
  size_eq := size_setTarget
  initial_eq := rfl
  isAccepting_eq _ := isAccepting_setTarget
  next_touched q' s' h := by
    rw [next_setTarget hd hq hs, if_pos h, h.1, h.2]
  next_kept q' s' h := by
    rw [next_setTarget hd hq hs, if_neg h]

theorem retarget_const {target : Option Nat} :
    retarget (fun _ => target) q = fun d s => d.setTransition q s target := by
  funext d s
  unfold retarget setTransition
  cases d.transition q s <;> rfl

/-- A loop over symbols of one state. -/
theorem exists_foldlM_retarget (f : Option Nat → Option Nat) (symbols : List Nat)
    (hf : ∀ t, f (f t) = f t)
    (hlt : ∀ target, (∀ t ∈ target, t < d.size) → ∀ t ∈ f target, t < d.size)
    (hd : d.WellFormed) (hq : q < d.size) (hsymbols : ∀ s ∈ symbols, s < d.alphabet) :
    ∃ e, symbols.foldlM (retarget f q) d = .ok e ∧
      Rewired (fun q' s => q' = q ∧ s ∈ symbols) (fun _ _ => f) d e := by
  obtain ⟨e, he, hrewired⟩ := exists_foldlM_rewired (fun _ _ => f) (retarget f q)
    (fun s q' s' => q' = q ∧ s' = s) symbols (fun _ _ => hf) hd
    fun d' hd' halphabet hsize s hs => by
      have hs' : s < d'.alphabet := halphabet ▸ hsymbols s hs
      have hq' : q < d'.size := hsize ▸ hq
      refine ⟨d'.setTarget q s (f (d'.next q s)), ?_, rewired_setTarget _ hd' hq' hs' ?_⟩
      · rw [retarget, transition_eq hd' hq' hs']
        exact setTransition_eq hd' hq' hs'
      · rw [hsize]
        exact hlt _ fun t ht => hsize ▸ hd'.next_lt ht
  refine ⟨e, he, hrewired.congr fun q' s => ?_⟩
  exact ⟨fun ⟨_, hs, hq, heq⟩ => ⟨hq, heq ▸ hs⟩, fun ⟨hq, hs⟩ => ⟨s, hs, hq, rfl⟩⟩

end Rewiring

/-- What an automaton looks like from outside determines it. -/
theorem WellFormed.ext (hd : d.WellFormed) (he : e.WellFormed) (halphabet : d.alphabet = e.alphabet)
    (hsize : d.size = e.size) (hinitial : d.initial = e.initial)
    (haccepting : ∀ q < d.size, d.isAccepting q = e.isAccepting q)
    (hnext : ∀ q < d.size, ∀ s < d.alphabet, d.next q s = e.next q s) : d = e := by
  have hrows : d.rows = e.rows := by
    refine Array.ext hsize fun q hq hq' => ?_
    have haccepting := haccepting q hq
    rw [isAccepting, isAccepting, Array.getElem?_eq_getElem hq,
      Array.getElem?_eq_getElem hq'] at haccepting
    refine Row.ext haccepting ?_
    rw [← targets_eq hq, ← targets_eq hq', hd.targets_eq_map hq, he.targets_eq_map hq', halphabet]
    exact List.map_congr_left fun s hs => hnext q hq s (halphabet ▸ List.mem_range.1 hs)
  obtain ⟨alphabet, rows, initial⟩ := d
  obtain ⟨alphabet', rows', initial'⟩ := e
  cases halphabet
  cases hrows
  cases hinitial
  rfl

end Dfa

namespace Nfa

variable {n : Nfa} {f : Fragment} {r : SymbolRange} {p q : Nat}

/-! ### Single steps -/

theorem exists_node (hp : p < n.size) : ∃ node, n.node p = .ok node := ⟨_, readAt_eq hp⟩

theorem connected_eq (hstop : r.stop ≤ n.alphabet) (hp : p < n.size) :
    n.connected p r q = .ok (n.connect p r q) := by
  rw [connected, if_neg (Nat.not_lt.2 hstop)]
  obtain ⟨node, hnode⟩ := exists_node hp
  split
  next hempty => rw [connect, if_pos hempty]
  next => rw [hnode]; rfl

theorem connectedSilent_eq (hp : p < n.size) :
    n.connectedSilent p q = .ok (n.connectSilent p q) := by
  obtain ⟨node, hnode⟩ := exists_node hp
  rw [connectedSilent, hnode]
  rfl

/-! ### Combinators

Only the nodes that steps begin at are looked up: the exits of the operands, and new nodes. -/

theorem makeSymbols_eq (hstop : r.stop ≤ n.alphabet) : n.makeSymbols r = .ok (n.symbols r) := by
  have hentry : n.size < n.addPair.1.size := by simp
  rw [makeSymbols, symbols, addPair_eq]
  dsimp only
  rw [connected_eq (n := n.addPair.1) hstop hentry]
  rfl

theorem makeSymbol_eq {s : Nat} (hs : s < n.alphabet) : n.makeSymbol s = .ok (n.symbol s) :=
  makeSymbols_eq hs

theorem makeEpsilon_eq : n.makeEpsilon = .ok n.epsilon := by
  have hentry : n.size < n.addPair.1.size := by simp
  rw [makeEpsilon, epsilon, addPair_eq]
  dsimp only
  rw [connectedSilent_eq hentry]
  rfl

theorem linked_eq {fs : List Fragment} (hexits : ∀ f ∈ fs, f.exit < n.size) :
    n.linked fs = .ok (n.link fs) := by
  induction fs generalizing n with
  | nil => rfl
  | cons f fs ih =>
    cases fs with
    | nil => rfl
    | cons g fs =>
      rw [List.forall_mem_cons] at hexits
      rw [linked, connectedSilent_eq hexits.1]
      exact ih (by simpa using hexits.2)

theorem makeSequence_eq {fs : List Fragment} (hexits : ∀ f ∈ fs, f.exit < n.size) :
    n.makeSequence fs = .ok (n.sequence fs) := by
  cases fs with
  | nil => exact makeEpsilon_eq
  | cons f fs =>
    rw [makeSequence, linked_eq hexits]
    rfl

theorem offered_eq {whole : Fragment} (hentry : whole.entry < n.size) (hexit : f.exit < n.size) :
    offered whole n f =
      .ok ((n.connectSilent whole.entry f.entry).connectSilent f.exit whole.exit) := by
  rw [offered, connectedSilent_eq hentry]
  exact connectedSilent_eq (by rwa [size_connectSilent])

theorem makeAlternation_eq {fs : List Fragment} (hexits : ∀ f ∈ fs, f.exit < n.size) :
    n.makeAlternation fs = .ok (n.alternation fs) := by
  have hoffered (m : Nfa) (f : Fragment) (hf : f ∈ fs) (hsize : m.size = n.size + 2) :
      offered ⟨n.size, n.size + 1⟩ m f =
        .ok ((m.connectSilent n.size f.entry).connectSilent f.exit (n.size + 1)) ∧
      ((m.connectSilent n.size f.entry).connectSilent f.exit (n.size + 1)).size = n.size + 2 := by
    have hexit := hexits f hf
    refine ⟨offered_eq ?_ (by omega), by simpa using hsize⟩
    show n.size < m.size
    omega
  obtain ⟨hloop, -⟩ := foldlM_eq_ok hoffered (size_addPair (n := n))
  match fs with
  | [] => rfl
  | [f] => rfl
  | f :: g :: fs =>
    unfold makeAlternation alternation
    rw [addPair_eq]
    dsimp only
    rw [hloop]
    rfl

section One

variable (hexit : f.exit < n.size)

include hexit

theorem makeStar_eq : n.makeStar f = .ok (n.star f) := by
  rw [makeStar, star, addPair_eq]
  dsimp only
  rw [connectedSilent_eq, ok_bind, connectedSilent_eq, ok_bind, connectedSilent_eq, ok_bind]
  · rfl
  all_goals simp only [size_connectSilent, size_addPair]; omega

theorem makePlus_eq : n.makePlus f = .ok (n.plus f) := by
  rw [makePlus, plus, addPair_eq]
  dsimp only
  rw [connectedSilent_eq, ok_bind, connectedSilent_eq, ok_bind, connectedSilent_eq, ok_bind]
  · rfl
  all_goals simp only [size_connectSilent, size_addPair]; omega

theorem makeOptional_eq : n.makeOptional f = .ok (n.optional f) := by
  rw [makeOptional, optional, addPair_eq]
  dsimp only
  rw [connectedSilent_eq, ok_bind, connectedSilent_eq, ok_bind, connectedSilent_eq, ok_bind]
  · rfl
  all_goals simp only [size_connectSilent, size_addPair]; omega

end One

/-! ### Nodes that grow -/

/-- The automaton with further steps of a node. -/
def grow (n : Nfa) (id : Nat) (more : Node) : Nfa :=
  { n with nodes := n.nodes.modify id fun node =>
      ⟨node.edges ++ more.edges, node.silent ++ more.silent⟩ }

@[simp] theorem size_grow (more : Node) : (n.grow p more).size = n.size := by
  simp [grow, size]

theorem grow_grow (first second : Node) : (n.grow p first).grow p second =
    n.grow p ⟨first.edges ++ second.edges, first.silent ++ second.silent⟩ := by
  refine congrArg (Nfa.mk n.alphabet) (Array.ext_getElem? fun i => ?_)
  simp only [grow, Array.getElem?_modify]
  split
  · cases n.nodes[i]? <;> simp
  · rfl

theorem grow_blank : n.grow p ⟨[], []⟩ = n := by
  refine congrArg (Nfa.mk n.alphabet) (Array.ext_getElem? fun i => ?_)
  simp [Array.getElem?_modify]

theorem connect_eq_grow (hr : r.isEmpty = false) : n.connect p r q = n.grow p ⟨[(r, q)], []⟩ := by
  simp [connect, grow, hr]

theorem connectSilent_eq_grow : n.connectSilent p q = n.grow p ⟨[], [q]⟩ := by
  simp [connectSilent, grow]

section Growing

variable {α : Type} {step : Nfa → α → Except Fault Nfa} {xs : List α}

/-- Steps that are added to one node, one after the other. -/
theorem foldlM_eq_grow (more : α → Node)
    (hstep : ∀ m : Nfa, m.alphabet = n.alphabet → m.size = n.size →
      ∀ x ∈ xs, step m x = .ok (m.grow p (more x))) :
    xs.foldlM step n =
      .ok (n.grow p ⟨xs.flatMap fun x => (more x).edges, xs.flatMap fun x => (more x).silent⟩) := by
  induction xs generalizing n with
  | nil => exact congrArg Except.ok grow_blank.symm
  | cons x xs ih =>
    have hrest : ∀ m : Nfa, m.alphabet = n.alphabet → m.size = (n.grow p (more x)).size →
        ∀ y ∈ xs, step m y = .ok (m.grow p (more y)) := fun m halphabet hsize y hy =>
      hstep m halphabet (hsize.trans (size_grow _)) y (List.mem_cons_of_mem x hy)
    rw [List.foldlM_cons, hstep n rfl rfl x List.mem_cons_self, ok_bind, ih hrest, grow_grow]
    rfl

end Growing

/-- Nodes without steps, in a row among others, that get their steps one after the other. -/
theorem foldlM_fill (alphabet : Nat) (front back : List Node)
    (step : Nfa → Nat → Except Fault Nfa) (more : Nat → Node) (count : Nat)
    (hstep : ∀ m : Nfa, m.alphabet = alphabet → m.size = front.length + count + back.length →
      ∀ i < count, step m i = .ok (m.grow (front.length + i) (more i))) :
    (List.range count).foldlM step
      ⟨alphabet, (front ++ List.replicate count (⟨[], []⟩ : Node) ++ back).toArray⟩ =
      .ok ⟨alphabet, (front ++ (List.range count).map more ++ back).toArray⟩ := by
  -- the nodes in front of the next one have got their steps
  let filled (i : Nat) : Nfa := ⟨alphabet, (front ++ (List.range i).map more ++
    (List.replicate (count - i) (⟨[], []⟩ : Node) ++ back)).toArray⟩
  have hfill (i : Nat) (hi : i < count) : step (filled i) i = .ok (filled (i + 1)) := by
    obtain ⟨rest, hrest⟩ : ∃ rest, count - i = rest + 1 := ⟨count - i - 1, by omega⟩
    have hsize : (filled i).size = front.length + count + back.length := by
      simp [filled, size]
      omega
    rw [hstep _ rfl hsize i hi]
    refine congrArg (fun nodes => Except.ok (Nfa.mk alphabet nodes)) ?_
    rw [List.modify_toArray, hrest, List.replicate_succ, List.cons_append,
      modify_append_cons (by simp), List.range_succ, show count - (i + 1) = rest by omega]
    simp
  simpa [filled] using foldlM_range_eq_ok filled hfill

end Nfa
end CallChain
