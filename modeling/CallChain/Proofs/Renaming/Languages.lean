import CallChain.Proofs.Alphabet
import CallChain.Proofs.Meaning
import CallChain.Proofs.Renaming.Tables
import Mathlib.Algebra.BigOperators.Group.List.Basic

/-!
# Chains under renamed actions

Renaming the handles of a table renames the words of every body, and with them what is offered
after a chain. The order in which the definitions of a registry stand takes no part in what its
bodies mean (`Registry.Rearranges`).

* `language_rename`: the words of a body.
* `close_rename`: the words of a scope.
* `afterAll_rename`: where chains lead.
-/

namespace CallChain

open scoped Computability

/-- The renaming of the actions among the symbols. -/
def SymbolKind.rename (σ : ActionId ≃ ActionId) : SymbolKind ≃ SymbolKind where
  toFun
    | .action id => .action (σ id)
    | .anchor mark => .anchor mark
  invFun
    | .action id => .action (σ.symm id)
    | .anchor mark => .anchor mark
  left_inv k := by cases k <;> simp
  right_inv k := by cases k <;> simp

section Words

variable {α : Type} (e : α ≃ α) {L L' : Language α}

theorem exists_map_eq (w : List α) : ∃ v : List α, v.map e = w :=
  List.map_surjective_iff.2 e.surjective w

theorem eq_map_of_mem_iff (h : ∀ w, w.map e ∈ L' ↔ w ∈ L) : L' = L.map e := by
  ext w
  obtain ⟨v, rfl⟩ := exists_map_eq e w
  rw [h, map_mem_map_iff e.injective]

end Words

variable {σ : ActionId ≃ ActionId} {t t' : ActionTable} {L : Language SymbolKind}

@[simp] theorem rename_action {id : ActionId} :
    SymbolKind.rename σ (.action id) = .action (σ id) := rfl

@[simp] theorem rename_anchor {mark : Anchor} :
    SymbolKind.rename σ (.anchor mark) = .anchor mark := rfl

theorem mem_rename_iff {w : List SymbolKind} :
    w.map (SymbolKind.rename σ) ∈ L.map (SymbolKind.rename σ) ↔ w ∈ L :=
  map_mem_map_iff (SymbolKind.rename σ).injective

/-! ### Bodies -/

theorem overloads_rename (h : t.Renames σ t') (name : String) :
    t'.overloads name = (t.overloads name).map (SymbolKind.rename σ) := by
  refine eq_map_of_mem_iff _ fun w => ?_
  constructor
  · rintro ⟨id, hid, heq⟩
    refine ⟨σ.symm id, ?_, ?_⟩
    · rwa [← h.mem_members_iff, σ.apply_symm_apply]
    · refine List.map_injective_iff.2 (SymbolKind.rename σ).injective ?_
      rw [heq, List.map_singleton, rename_action, σ.apply_symm_apply]
  · rintro ⟨id, hid, rfl⟩
    exact ⟨σ id, h.mem_members_iff.2 hid, rfl⟩

theorem repeated_rename (q : Quantifier) :
    q.repeated (L.map (SymbolKind.rename σ)) =
      (q.repeated L).map (SymbolKind.rename σ) := by
  cases q with
  | star => exact (Language.map_kstar _ L).symm
  | plus => rw [Quantifier.repeated, Quantifier.repeated, map_mul, Language.map_kstar]
  | optional => rw [Quantifier.repeated, Quantifier.repeated, map_add, map_one]

namespace Regex

variable {env : String → Language SymbolKind}

mutual

/-- The words of a body under other handles. -/
theorem language_rename (h : t.Renames σ t') : ∀ expr : Regex,
    expr.language t' (fun name => (env name).map (SymbolKind.rename σ)) =
      (expr.language t env).map (SymbolKind.rename σ)
  | literal name => overloads_rename h name.text
  | ref _ => rfl
  | anchor mark => by
    show {[SymbolKind.anchor mark]} = Set.image _ {[SymbolKind.anchor mark]}
    rw [Set.image_singleton]
    rfl
  | concat operands => by
    rw [language, language, languagesOf_rename h operands, map_list_prod]
  | alt operands => by
    rw [language, language, languagesOf_rename h operands, map_list_sum]
  | quantified operand q => by
    rw [language, language, language_rename h operand, repeated_rename]
  | nonEmpty operand => by
    rw [language, language, language_rename h operand]
    refine eq_map_of_mem_iff _ fun w => ?_
    exact and_congr mem_rename_iff (not_congr List.map_eq_nil_iff)

theorem languagesOf_rename (h : t.Renames σ t') : ∀ operands : List Regex,
    languagesOf t' (fun name => (env name).map (SymbolKind.rename σ)) operands =
      (languagesOf t env operands).map (Language.map (SymbolKind.rename σ))
  | [] => rfl
  | operand :: operands => by
    rw [languagesOf, languagesOf, language_rename h operand, languagesOf_rename h operands,
      List.map_cons]

end

end Regex

/-! ### Scopes -/

namespace Scope

theorem inside_rename : inside (L.map (SymbolKind.rename σ)) =
    (inside L).map (SymbolKind.rename σ) := by
  refine eq_map_of_mem_iff _ fun w => ?_
  have hstart : .anchor .start ∉ w.map (SymbolKind.rename σ) ↔ .anchor .start ∉ w := by
    refine not_congr ?_
    exact List.mem_map_of_injective (SymbolKind.rename σ).injective (a := .anchor .start)
  have hanchored : .anchor .start :: w.map (SymbolKind.rename σ) ∈
      L.map (SymbolKind.rename σ) ↔ .anchor .start :: w ∈ L :=
    mem_rename_iff (w := .anchor .start :: w)
  exact and_congr hstart (or_congr mem_rename_iff hanchored)

theorem prefixes_rename : prefixes (L.map (SymbolKind.rename σ)) =
    (prefixes L).map (SymbolKind.rename σ) := by
  refine eq_map_of_mem_iff _ fun u => ?_
  constructor
  · rintro ⟨v', hv'⟩
    obtain ⟨v, rfl⟩ := exists_map_eq (SymbolKind.rename σ) v'
    rw [← List.map_append] at hv'
    exact ⟨v, mem_rename_iff.1 hv'⟩
  · rintro ⟨v, hv⟩
    refine ⟨v.map (SymbolKind.rename σ), ?_⟩
    rw [← List.map_append]
    exact mem_rename_iff.2 hv

/-- The ways through a scope under other handles. -/
theorem passes_rename_iff {u : List SymbolKind} :
    Passes (L.map (SymbolKind.rename σ)) (u.map (SymbolKind.rename σ)) ↔ Passes L u := by
  have hbegins {u : List SymbolKind} :
      u.map (SymbolKind.rename σ) ∈ prefixes (inside (L.map (SymbolKind.rename σ))) ↔
        u ∈ prefixes (inside L) := by
    rw [inside_rename, prefixes_rename, mem_rename_iff]
  have hstop {p : List SymbolKind} :
      p.map (SymbolKind.rename σ) ++ [.anchor .stop] ∈
          prefixes (inside (L.map (SymbolKind.rename σ))) ↔
        p ++ [.anchor .stop] ∈ prefixes (inside L) := by
    rw [← hbegins, List.map_append]
    exact Iff.rfl
  constructor
  · intro h
    refine ⟨hbegins.1 h.mem_prefixes, fun k hk => ?_, fun heq => ?_, fun p hp hne hmem => ?_⟩
    · have hkind := h.kinds _ (List.mem_map_of_mem hk)
      cases k with
      | action id => exact .inr ⟨id, rfl⟩
      | anchor mark =>
        rcases hkind with heq | ⟨id, heq⟩
        · exact .inl heq
        · cases heq
    · refine h.head_ne ?_
      rw [List.head?_map, heq]
      rfl
    · refine h.not_ended _ (hp.map _) ?_ (hstop.2 hmem)
      exact fun heq => hne (List.map_injective_iff.2 (SymbolKind.rename σ).injective heq)
  · intro h
    refine ⟨hbegins.2 h.mem_prefixes, ?_, fun heq => ?_, fun p' hp' hne hmem => ?_⟩
    · rw [List.forall_mem_map]
      intro k hk
      rcases h.kinds k hk with rfl | ⟨id, rfl⟩
      · exact .inl rfl
      · exact .inr ⟨σ id, rfl⟩
    · rw [List.head?_map] at heq
      obtain ⟨k, hk, hrename⟩ := Option.map_eq_some_iff.1 heq
      cases k with
      | action id => cases hrename
      | anchor mark =>
        refine h.head_ne ?_
        rw [hk]
        exact congrArg some hrename
    · obtain ⟨p, hp, rfl⟩ := List.prefix_map_iff.1 hp'
      exact h.not_ended p hp (fun heq => hne (heq ▸ rfl)) (hstop.1 hmem)

/-- The words of a closed scope under other handles. -/
theorem close_rename : close (L.map (SymbolKind.rename σ)) =
    (close L).map (SymbolKind.rename σ) := by
  have hfilter (u : List SymbolKind) :
      (u.map (SymbolKind.rename σ)).filter (· ≠ .anchor .inner) =
        (u.filter (· ≠ .anchor .inner)).map (SymbolKind.rename σ) := by
    rw [List.filter_map]
    refine congrArg _ (List.filter_congr fun k _ => ?_)
    cases k <;> rfl
  refine eq_map_of_mem_iff _ fun w => ?_
  refine or_congr List.map_eq_nil_iff ?_
  constructor
  · rintro ⟨u', hu', heq⟩
    obtain ⟨u, rfl⟩ := exists_map_eq (SymbolKind.rename σ) u'
    rw [hfilter] at heq
    exact ⟨u, passes_rename_iff.1 hu',
      List.map_injective_iff.2 (SymbolKind.rename σ).injective heq⟩
  · rintro ⟨u, hu, rfl⟩
    exact ⟨u.map (SymbolKind.rename σ), passes_rename_iff.2 hu, hfilter u⟩

end Scope

theorem SubExpression.language_rename (h : t.Renames σ t') {env : String → Language SymbolKind}
    (s : SubExpression) :
    s.language t' (fun name => (env name).map (SymbolKind.rename σ)) =
      (s.language t env).map (SymbolKind.rename σ) := by
  unfold SubExpression.language
  rw [s.body.language_rename h]
  split
  · exact Scope.close_rename
  · rfl

/-! ### Positions -/

/-- A position under other handles. -/
def Position.rename (σ : ActionId ≃ ActionId) : Position → Position
  | after taken => after (taken.map σ)
  | ended => ended

namespace Position

variable {id : ActionId} {taken : List ActionId}

theorem append_mem_rename_iff :
    (taken.map σ ++ [σ id]).map SymbolKind.action ∈ L.map (SymbolKind.rename σ) ↔
      (taken ++ [id]).map SymbolKind.action ∈ L := by
  have heq : (taken.map σ ++ [σ id]).map SymbolKind.action =
      ((taken ++ [id]).map SymbolKind.action).map (SymbolKind.rename σ) := by
    simp
  rw [heq, mem_rename_iff]

variable (h : t.Renames σ t')

include h

theorem mem_offers_rename_iff (pos : Position) :
    σ id ∈ (pos.rename σ).offers t' (L.map (SymbolKind.rename σ)) ↔ id ∈ pos.offers t L := by
  cases pos with
  | after taken => exact or_congr append_mem_rename_iff (by rw [h.holds_eq])
  | ended => exact Iff.rfl

theorem offers_rename_nonempty_iff {pos : Position} :
    ((pos.rename σ).offers t' (L.map (SymbolKind.rename σ))).Nonempty ↔
      (pos.offers t L).Nonempty := by
  constructor
  · rintro ⟨id, hid⟩
    rw [← σ.apply_symm_apply id, mem_offers_rename_iff h] at hid
    exact ⟨_, hid⟩
  · rintro ⟨id, hid⟩
    exact ⟨σ id, (mem_offers_rename_iff h pos).2 hid⟩

open Classical in
theorem successor_rename :
    successor t' (L.map (SymbolKind.rename σ)) (taken.map σ) (σ id) =
      (successor t L taken id).rename σ := by
  unfold successor
  rw [h.holds_eq]
  split
  · rfl
  have hnext : (after (if (taken.map σ ++ [σ id]).map .action ∈ L.map (SymbolKind.rename σ)
        then taken.map σ ++ [σ id] else taken.map σ)) =
      (after (if (taken ++ [id]).map .action ∈ L then taken ++ [id] else taken)).rename σ := by
    by_cases hmem : (taken ++ [id]).map SymbolKind.action ∈ L
    · rw [if_pos hmem, if_pos (append_mem_rename_iff.2 hmem)]
      simp [rename]
    · rw [if_neg hmem, if_neg (mt append_mem_rename_iff.1 hmem)]
      rfl
  dsimp only
  rw [hnext, apply_ite (rename σ)]
  exact if_congr (offers_rename_nonempty_iff h) rfl rfl

theorem take_rename {pos : Position} :
    (pos.rename σ).take t' (L.map (SymbolKind.rename σ)) (σ id) =
      (pos.take t L id).map (rename σ) := by
  cases pos with
  | ended => rfl
  | after taken =>
    show take t' _ (after (taken.map σ)) (σ id) = _
    by_cases hid : id ∈ (after taken).offers t L
    · have hid' : σ id ∈ (after (taken.map σ)).offers t' (L.map (SymbolKind.rename σ)) :=
        (mem_offers_rename_iff h (after taken)).2 hid
      rw [take, take, if_pos hid, if_pos hid', successor_rename h]
      rfl
    · have hid' : σ id ∉ (after (taken.map σ)).offers t' (L.map (SymbolKind.rename σ)) :=
        mt (mem_offers_rename_iff h (after taken)).1 hid
      rw [take, take, if_neg hid, if_neg hid']
      rfl

/-- Renamed chains lead to renamed positions. -/
theorem afterAll_rename (chain : List ActionId) :
    afterAll t' (L.map (SymbolKind.rename σ)) (chain.map σ) =
      (afterAll t L chain).map (rename σ) := by
  have hrun (pos : Position) :
      (chain.map σ).foldlM (take t' (L.map (SymbolKind.rename σ))) (pos.rename σ) =
        (chain.foldlM (take t L) pos).map (rename σ) := by
    induction chain generalizing pos with
    | nil => rfl
    | cons id chain ih =>
      rw [List.map_cons, List.foldlM_cons, List.foldlM_cons, take_rename h]
      cases pos.take t L id with
      | none => rfl
      | some next => exact ih next
  exact hrun (after [])

end Position

end CallChain
