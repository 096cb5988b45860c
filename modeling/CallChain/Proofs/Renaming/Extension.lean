import CallChain.Proofs.Automaton.Shapes

/-!
# Tables with further actions

A table may hold the actions of another one under the same handles and further actions, which are
not global and have names of their own (`ActionTable.Extends`). A body does not mention these names
if its literals are declared, so its words stay; chains of such words lead where they led; and the
places of the old actions in the canonical order change, but not how they compare, so an automaton
is dumped as before.

* `Regex.language_extends`: the words of a body.
* `Position.afterAll_extends`: where chains lead.
* `Automaton.dump_withTable`: dumps.
-/

namespace CallChain

/-! ### Tables -/

namespace ActionTable

/-- The second table holds the actions of the first, and further ones with other names that are not
offered everywhere. -/
structure Extends (t t' : ActionTable) : Prop where
  get?_eq : ∀ id ∈ t.ids, t'.get? id = t.get? id
  further : ∀ id action, id ∉ t.ids → t'.get? id = some action →
    action.isGlobal = false ∧ t.containsName action.name = false

variable {t t' : ActionTable} {id id' : ActionId} {name : String}

/-- One action more, at the end of the declarations. -/
theorem extends_append {new : Action} (hactions : t'.actions = t.actions ++ [new])
    (hglobal : new.isGlobal = false) (hname : t.containsName new.name = false) : t.Extends t' where
  get?_eq id hid := by
    obtain ⟨action, hget⟩ := mem_ids.1 hid
    rw [get?] at hget
    rw [get?, get?, hactions, List.getElem?_append_left (List.getElem?_eq_some_iff.1 hget).1]
  further id action hid hget := by
    have hle : t.actions.length ≤ id.index := by
      by_contra hlt
      exact hid (mem_ids.2 ⟨_, List.getElem?_eq_getElem (Nat.lt_of_not_le hlt)⟩)
    rw [get?, hactions, List.getElem?_append_right hle] at hget
    rw [List.mem_singleton.1 (List.mem_of_getElem? hget)]
    exact ⟨hglobal, hname⟩

theorem containsName_eq_false_iff :
    t.containsName name = false ↔ ∀ action ∈ t.actions, action.name ≠ name := by
  simp [containsName]

/-- An action with a name of its own clashes with no other. -/
theorem firstClash_insert {before after : List Action} {new : Action}
    (hclash : firstClash (inCanonicalOrder (before ++ after)) = none)
    (hname : ∀ action ∈ before ++ after, action.name ≠ new.name) :
    firstClash (inCanonicalOrder (before ++ new :: after)) = none := by
  rw [firstClash_inCanonicalOrder_eq_none_iff] at hclash ⊢
  rw [List.perm_middle.pairwise_iff compareKey_ne_symm, List.pairwise_cons]
  refine ⟨fun action haction heq => ?_, hclash⟩
  exact hname action haction (Action.compareKey_eq_iff.1 heq).1.symm

namespace Extends

variable (h : t.Extends t')

include h

theorem get?_eq_some {action : Action} (hget : t.get? id = some action) :
    t'.get? id = some action :=
  (h.get?_eq id (mem_ids.2 ⟨action, hget⟩)).trans hget

theorem mem_ids (hid : id ∈ t.ids) : id ∈ t'.ids := by
  obtain ⟨action, hget⟩ := ActionTable.mem_ids.1 hid
  exact ActionTable.mem_ids.2 ⟨action, h.get?_eq_some hget⟩

theorem get_eq (hid : id ∈ t.ids) : t'.get id = t.get id := by
  obtain ⟨action, hget⟩ := ActionTable.mem_ids.1 hid
  rw [get, get, h.get?_eq_some hget, hget]

theorem holds_eq (flag : Action → Bool) (hid : id ∈ t.ids) :
    t'.holds flag id = t.holds flag id := by
  rw [holds, holds, h.get?_eq id hid]

/-- What is offered everywhere is what was. -/
theorem holds_isGlobal_eq (id : ActionId) :
    t'.holds (·.isGlobal) id = t.holds (·.isGlobal) id := by
  by_cases hid : id ∈ t.ids
  · exact h.holds_eq _ hid
  · rw [Bool.eq_iff_iff]
    refine iff_of_false (fun hholds => ?_) fun hholds => hid (mem_ids_of_holds hholds)
    obtain ⟨action, hget, hglobal⟩ := holds_iff.1 hholds
    rw [(h.further id action hid hget).1] at hglobal
    cases hglobal

theorem containsName (hname : t.containsName name = true) : t'.containsName name = true := by
  obtain ⟨id, action, hget, heq⟩ := containsName_iff.1 hname
  exact containsName_iff.2 ⟨id, action, h.get?_eq_some hget, heq⟩

/-- A name that was declared has the overloads that it had. -/
theorem mem_members_iff (hname : t.containsName name = true) :
    id ∈ t'.members name ↔ id ∈ t.members name := by
  rw [mem_members, mem_members]
  constructor
  · rintro ⟨action, hget, rfl⟩
    by_cases hid : id ∈ t.ids
    · exact ⟨action, (h.get?_eq id hid).symm.trans hget, rfl⟩
    · rw [(h.further id action hid hget).2] at hname
      cases hname
  · rintro ⟨action, hget, rfl⟩
    exact ⟨action, h.get?_eq_some hget, rfl⟩

theorem overloads_eq (hname : t.containsName name = true) :
    t'.overloads name = t.overloads name := by
  ext w
  exact exists_congr fun id => and_congr_left' (h.mem_members_iff hname)

theorem label_eq (hid : id ∈ t.ids) : t'.label id = t.label id := by
  obtain ⟨action, hget⟩ := ActionTable.mem_ids.1 hid
  have hname : t.containsName action.name = true := containsName_iff.2 ⟨id, action, hget, rfl⟩
  have hperm : (t'.members action.name).Perm (t.members action.name) :=
    (List.perm_ext_iff_of_nodup nodup_members nodup_members).2 fun _ => h.mem_members_iff hname
  rw [label, label, h.get_eq hid, get, hget]
  exact congrArg Except.ok (labelOf_eq_of_length_eq hperm.length_eq)

/-- The actions compare as they did. -/
theorem compare_eq (hid : id ∈ t.ids) (hid' : id' ∈ t.ids) :
    t'.compare id id' = t.compare id id' := by
  obtain ⟨action, hget⟩ := ActionTable.mem_ids.1 hid
  obtain ⟨action', hget'⟩ := ActionTable.mem_ids.1 hid'
  rw [compare_eq_compareKey hget hget',
    compare_eq_compareKey (h.get?_eq_some hget) (h.get?_eq_some hget')]

end Extends

end ActionTable

section Meaning

variable {t t' : ActionTable}

/-! ### Words -/

namespace Regex

variable {env : String → Language SymbolKind}

mutual

/-- The words of a body that mentions declared names only. -/
theorem language_extends (h : t.Extends t') : ∀ expr : Regex,
    (∀ name ∈ expr.literals, t.containsName name.text = true) →
      expr.language t' env = expr.language t env
  | literal name, hliterals => h.overloads_eq (hliterals name (List.mem_singleton_self name))
  | ref _, _ => rfl
  | anchor _, _ => rfl
  | concat operands, hliterals => congrArg List.prod (languagesOf_extends h operands hliterals)
  | alt operands, hliterals => congrArg List.sum (languagesOf_extends h operands hliterals)
  | quantified operand q, hliterals =>
    congrArg (Quantifier.repeated · q) (language_extends h operand hliterals)
  | nonEmpty operand, hliterals => by
    rw [language, language, language_extends h operand hliterals]

theorem languagesOf_extends (h : t.Extends t') : ∀ operands : List Regex,
    (∀ name ∈ literalsOf operands, t.containsName name.text = true) →
      languagesOf t' env operands = languagesOf t env operands
  | [], _ => rfl
  | operand :: operands, hliterals => by
    rw [literalsOf, List.forall_mem_append] at hliterals
    rw [languagesOf, languagesOf, language_extends h operand hliterals.1,
      languagesOf_extends h operands hliterals.2]

end

end Regex

theorem SubExpression.language_extends (h : t.Extends t') {env : String → Language SymbolKind}
    {s : SubExpression} (hliterals : ∀ name ∈ s.body.literals, t.containsName name.text = true) :
    s.language t' env = s.language t env := by
  rw [SubExpression.language, SubExpression.language, s.body.language_extends h hliterals]

/-! ### Positions -/

namespace Position

variable (h : t.Extends t') {L : Language SymbolKind} {taken : List ActionId} {id : ActionId}

include h

theorem offers_extends (pos : Position) : pos.offers t' L = pos.offers t L := by
  cases pos with
  | after taken =>
    ext id
    show _ ∨ t'.holds _ id = true ↔ _ ∨ t.holds _ id = true
    rw [h.holds_isGlobal_eq]
  | ended => rfl

theorem take_extends (hoffers : ∀ id ∈ (after taken).offers t L, id ∈ t.ids) :
    (after taken).take t' L id = (after taken).take t L id := by
  rw [take, take, offers_extends h]
  split
  · next hid =>
    rw [successor, successor, h.holds_eq _ (hoffers id hid)]
    dsimp only
    rw [offers_extends h]
  · rfl

/-- Chains lead where they led if only actions of the first table are in the words. -/
theorem afterAll_extends
    (hoffers : ∀ taken, ∀ id ∈ (after taken).offers t L, id ∈ t.ids) (chain : List ActionId) :
    afterAll t' L chain = afterAll t L chain := by
  have htake : take t' L = take t L := by
    funext pos id
    cases pos with
    | after taken => exact take_extends h (hoffers taken)
    | ended => rfl
  rw [afterAll, afterAll, htake]

end Position

end Meaning

/-! ### Automata -/

namespace Automaton

/-- The automaton over another table. -/
def withTable (a : Automaton) (t : ActionTable) : Automaton := { a with table := t }

variable {a : Automaton} {t' : ActionTable} {state : StateId} {step : Transition}
  (ha : a.WellFormed) (h : a.table.Extends t')

include ha h

theorem wellFormed_withTable : (a.withTable t').WellFormed where
  initial := ha.initial
  nodup := ha.nodup
  action_mem q e he := h.mem_ids (ha.action_mem q e he)
  target := ha.target

/-- The transitions stand in the same order. -/
theorem inActionOrder_withTable :
    (a.withTable t').inActionOrder state (a.out state) =
      a.inActionOrder state (a.out state) := by
  refine sortBy_congr fun s hs s' hs' => ?_
  obtain ⟨e, he, rfl⟩ := List.mem_map.1 hs
  obtain ⟨e', he', rfl⟩ := List.mem_map.1 hs'
  exact congrArg _ (h.compare_eq (ha.action_mem state e he) (ha.action_mem state e' he'))

theorem order_withTable : (a.withTable t').order = a.order := by
  have htargets : (a.withTable t').targets = a.targets := by
    funext q
    exact congrArg _ (inActionOrder_withTable ha h)
  rw [order, order, htargets]
  rfl

theorem distinct_withTable (hdistinct : a.Distinct) : (a.withTable t').Distinct := by
  rw [Distinct, order_withTable ha h]
  exact hdistinct

variable (p : Palette)

theorem transitionText_withTable (hstep : step ∈ a.inActionOrder state (a.out state)) :
    (a.withTable t').transitionText p ⟨a.order⟩ step = a.transitionText p ⟨a.order⟩ step := by
  have hid := ha.mem_ids_of_next (next_of_mem_inActionOrder ha hstep)
  have hlabel : (a.withTable t').table.label step.action = a.table.label step.action :=
    h.label_eq hid
  have hget : (a.withTable t').table.get step.action = a.table.get step.action := h.get_eq hid
  have hmark : (a.withTable t').isVarargsApplicable step = a.isVarargsApplicable step := by
    rw [isVarargsApplicable, isVarargsApplicable, hget]
    rfl
  rw [transitionText, transitionText, hlabel, hmark]

theorem stateLine_withTable {k : Nat} (hq : state ∈ a.order) :
    (a.withTable t').stateLine p ⟨a.order⟩ (state, k) = a.stateLine p ⟨a.order⟩ (state, k) := by
  have hlt := index_lt_of_mem_order ha hq
  have htransitions : (a.withTable t').transitions state = a.transitions state := by
    rw [transitions_eq (wellFormed_withTable ha h) hlt, transitions_eq ha hlt]
    exact congrArg Except.ok (inActionOrder_withTable ha h)
  rw [stateLine, stateLine, htransitions, transitions_eq ha hlt]
  show (if _ then _ else _) = (if _ then _ else _)
  rw [mapM_congr fun step hstep => transitionText_withTable ha h p hstep]

/-- Further actions do not show in a dump. -/
theorem dump_withTable : (a.withTable t').dump p = a.dump p := by
  rw [dump, dump, numbering_eq ha, numbering_eq (wellFormed_withTable ha h), order_withTable ha h]
  show Except.map _ (a.order.zipIdx.mapM _) = Except.map _ (a.order.zipIdx.mapM _)
  exact congrArg _ (mapM_congr fun entry hentry =>
    stateLine_withTable ha h p (List.fst_mem_of_mem_zipIdx hentry))

end Automaton

end CallChain
