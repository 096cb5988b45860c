import CallChain.Proofs.Automaton.Exports
import CallChain.Proofs.Automaton.Shapes
import CallChain.Proofs.Compile.Minimal
import CallChain.Proofs.Renaming.Registries

/-!
# The order of declarations

The order in which actions and subexpressions are declared changes the symbols of a compilation and
every automaton on the way, but not what comes out of it. The states of a compiled automaton are
told apart by their shapes (`distinct_chainAutomaton`), since they are by what can be taken from
them, and the shape of its initial state is that of the positions of its chains
(`shape_chainAutomaton`), which only get other handles.

* `canonical_chainAutomaton_eq`: a language tells the automaton.
* `compile_perm`: a compilation and one of the same declarations in another order.
-/

namespace CallChain

/-- Is a position the end of the chain? -/
def Position.isEnded : Position → Bool
  | after _ => false
  | ended => true

/-- A shape tells what can be taken. -/
theorem Automaton.possible_eq_of_shape_eq {a : Automaton} {s s' : Successor}
    (h : a.shape s = a.shape s') : a.possible s = a.possible s' := by
  ext chain
  have hkind := congrArg Option.isSome (congrFun h chain)
  rw [shape, shape, Option.isSome_map, Option.isSome_map] at hkind
  show (∃ _, chain.foldlM _ _ = _) ↔ ∃ _, chain.foldlM _ _ = _
  rw [← Option.isSome_iff_exists, hkind, Option.isSome_iff_exists]

namespace Alphabet

variable {t : ActionTable} {d : Dfa} {L : Language SymbolKind}

/-! ### Shapes of compiled automata -/

section Shapes

variable (hd : (ofTable t).Represents d L) (hL : IsChain L)

include hd hL

/-- No two states of a compiled automaton have one shape. -/
theorem distinct_chainAutomaton : (chainAutomaton t d).Distinct := by
  intro k hk l hl hshape
  refine eq_of_possible_eq hd hL ?_ ?_ (Automaton.possible_eq_of_shape_eq hshape)
  · exact Automaton.index_lt_of_mem_order wellFormed_assembled hk
  · exact Automaton.index_lt_of_mem_order wellFormed_assembled hl

/-- The shape of the initial state is told by positions. -/
theorem shape_chainAutomaton (chain : List ActionId) :
    (chainAutomaton t d).shape (.state (chainAutomaton t d).initial) chain =
      (Position.afterAll t L chain).map Position.isEnded := by
  have hruns := (matches_initial (t := t) hd.toWellFormed).foldlM hd hL chain
  show (chain.foldlM (chainAutomaton t d).taken (.state ⟨0⟩)).map _ = _
  rcases hruns with ⟨hpos, hs⟩ | ⟨pos, s, hpos, hs, hmatches⟩
  · rw [hs, Position.afterAll, hpos]
    rfl
  · rw [hs, Position.afterAll, hpos]
    cases hmatches <;> rfl

end Shapes

/-! ### Languages tell automata apart -/

section Renamed

variable {t' : ActionTable} {d' : Dfa} {σ : ActionId ≃ ActionId}

theorem isEnded_rename (pos : Position) : (pos.rename σ).isEnded = pos.isEnded := by
  cases pos <;> rfl

/-- Automata of one language, told by two tables, differ in their handles only. -/
theorem exists_relabels_chainAutomaton (ht : t.Renames σ t') (hd : (ofTable t).Represents d L)
    (hL : IsChain L) (hd' : (ofTable t').Represents d' (L.map (SymbolKind.rename σ)))
    (hL' : IsChain (L.map (SymbolKind.rename σ))) :
    ∃ f, Automaton.Relabels σ f (chainAutomaton t d).canonical
      (chainAutomaton t' d').canonical := by
  have hwf := wellFormed_assembled (t := t) (d := (ofTable t).saturate t d)
  have hwf' := wellFormed_assembled (t := t') (d := (ofTable t').saturate t' d')
  refine Automaton.exists_relabels (fun chain => ?_) (Automaton.wellFormed_canonical hwf)
    (Automaton.wellFormed_canonical hwf') ((distinct_chainAutomaton hd hL).canonical hwf)
    ((distinct_chainAutomaton hd' hL').canonical hwf') ht
  have hshape := congrFun (Automaton.shape_canonical hwf Automaton.initial_mem_order) chain
  have hshape' := congrFun (Automaton.shape_canonical hwf' Automaton.initial_mem_order)
    (chain.map σ)
  rw [Automaton.place_initial, shape_chainAutomaton hd hL] at hshape
  rw [Automaton.place_initial, shape_chainAutomaton hd' hL', Position.afterAll_rename ht,
    Option.map_map] at hshape'
  refine hshape'.trans (Eq.trans ?_ hshape.symm)
  exact congrFun (congrArg Option.map (funext isEnded_rename)) _

/-- Automata of one language are the same. -/
theorem canonical_chainAutomaton_eq (hd : (ofTable t).Represents d L) (hL : IsChain L)
    (hd' : (ofTable t).Represents d' L) :
    (chainAutomaton t d').canonical = (chainAutomaton t d).canonical := by
  have hsame : L.map (SymbolKind.rename (Equiv.refl ActionId)) = L := by
    have hrename : ⇑(SymbolKind.rename (Equiv.refl ActionId)) = id := by
      funext k
      cases k <;> rfl
    rw [hrename]
    exact Language.map_id L
  have hwf := wellFormed_assembled (t := t) (d := (ofTable t).saturate t d)
  have hwf' := wellFormed_assembled (t := t) (d := (ofTable t).saturate t d')
  have ht : t.Renames (Equiv.refl ActionId) t := ⟨(List.map_id _).symm, fun _ => rfl⟩
  rw [← hsame] at hd'
  obtain ⟨f, hf⟩ := exists_relabels_chainAutomaton ht hd hL hd' (hsame.symm ▸ hL)
  have heq := hf.canonical_eq (Automaton.wellFormed_canonical hwf)
    (Automaton.wellFormed_canonical hwf') (Eq.refl t)
  rwa [Automaton.canonical_canonical hwf, Automaton.canonical_canonical hwf'] at heq

end Renamed

end Alphabet

/-! ### Compilations of the same declarations -/

section Rearranged

variable {r r' : Registry} {t t' : ActionTable} {A A' : Automaton} {σ : ActionId ≃ ActionId}

/-- The automata that two arrangements of the same declarations compile to differ in their handles
only. -/
theorem relabels_of_compile_eq_ok (hr : r.Rearranges r') (ht : t.Renames σ t')
    (hA : (r.compile t).1 = .ok A) (hA' : (r'.compile t').1 = .ok A') :
    A.WellFormed ∧ A'.WellFormed ∧ ∃ f, Automaton.Relabels σ f A A' := by
  have hwf := wellFormed_of_compile_eq_ok hA
  have hwf' := wellFormed_of_compile_eq_ok hA'
  obtain ⟨compiled, d, hmemo, hrefs, hd, rfl⟩ := exists_of_compile_eq_ok hA
  obtain ⟨compiled', d', hmemo', hrefs', hd', rfl⟩ := exists_of_compile_eq_ok hA'
  have hlanguage : r'.root.language t' (environment t' compiled') =
      (r.root.language t (environment t compiled)).map (SymbolKind.rename σ) := by
    rw [← hmemo'.language_root_eq hrefs' (hr.solves ht (hmemo.solves hrefs)),
      SubExpression.language_rename ht, hr.root_eq]
  have hchain := isChain_root (r := r) (t := t) (environment t compiled)
  have hchain' := isChain_root (r := r') (t := t') (environment t' compiled')
  rw [hlanguage] at hd' hchain'
  exact ⟨hwf, hwf', Alphabet.exists_relabels_chainAutomaton ht hd hchain hd' hchain'⟩

/-- A compilation does not depend on the order of the declarations. Two lists of the same actions
have tables or have none together. With such tables, a registry and one with the same root and the
same definitions either both compile to automata with the same dumps and the same export, or fail
with the same error. -/
theorem compile_perm {actions actions' : List Action} (hactions : actions.Perm actions')
    (hroot : r.root = r'.root) (hnamed : r.named.Perm r'.named) :
    (∃ clash clash', ActionTable.ofActions? actions = .error clash ∧
        ActionTable.ofActions? actions' = .error clash') ∨
      ∃ t t', ActionTable.ofActions? actions = .ok t ∧ ActionTable.ofActions? actions' = .ok t' ∧
        ((∃ A A', (r.compile t).1 = .ok A ∧ (r'.compile t').1 = .ok A' ∧
            (∀ p, ∃ text, A.dump p = .ok text ∧ A'.dump p = .ok text) ∧
            ∃ e, A.exported = .ok e ∧ A'.exported = .ok e) ∨
          ∃ e, (r.compile t).1 = .error (.problem e) ∧
            (r'.compile t').1 = .error (.problem e)) := by
  have hclashes : firstClash (inCanonicalOrder actions) = none ↔
      firstClash (inCanonicalOrder actions') = none := by
    rw [firstClash_inCanonicalOrder_eq_none_iff, firstClash_inCanonicalOrder_eq_none_iff]
    exact hactions.pairwise_iff compareKey_ne_symm
  cases hclash : firstClash (inCanonicalOrder actions) with
  | some clash =>
    cases hclash' : firstClash (inCanonicalOrder actions') with
    | some clash' =>
      exact .inl ⟨clash, clash', ActionTable.ofActions?_eq_error hclash,
        ActionTable.ofActions?_eq_error hclash'⟩
    | none =>
      rw [hclashes.2 hclash'] at hclash
      cases hclash
  | none =>
    refine .inr ⟨_, _, ActionTable.ofActions?_eq_ok hclash,
      ActionTable.ofActions?_eq_ok (hclashes.1 hclash), ?_⟩
    generalize ht : (⟨actions, _, rfl, hclash⟩ : ActionTable) = t
    generalize ht' : (⟨actions', _, rfl, hclashes.1 hclash⟩ : ActionTable) = t'
    obtain ⟨σ, hσ⟩ : ∃ σ, ActionTable.Renames σ t t' := by
      refine ActionTable.exists_renames ?_
      rw [← ht, ← ht']
      exact hactions
    have hr : r.Rearranges r' := ⟨hroot, hnamed⟩
    have hscan := hr.scan_eq hσ
    rcases compile_cases (r := r) (t := t) with ⟨⟨A, hA⟩, done, hdone⟩ | ⟨e, he, hproblem⟩
    · rcases compile_cases (r := r') (t := t') with ⟨⟨A', hA'⟩, -⟩ | ⟨e', -, hproblem'⟩
      · obtain ⟨hwf, hwf', f, hf⟩ := relabels_of_compile_eq_ok hr hσ hA hA'
        obtain ⟨e, he⟩ := Automaton.exists_exported hwf
        refine .inl ⟨A, A', hA, hA', fun p => ?_, e, he, ?_⟩
        · obtain ⟨text, htext⟩ := Automaton.exists_dump hwf p
          exact ⟨text, htext, (hf.dump_eq hwf hwf' p).trans htext⟩
        · exact (hf.exported_eq hwf hwf').trans he
      · rw [hscan, hdone] at hproblem'
        cases hproblem'
    · rcases compile_cases (r := r') (t := t') with ⟨-, done', hdone'⟩ | ⟨e', he', hproblem'⟩
      · rw [hscan, hproblem] at hdone'
        cases hdone'
      · rw [hscan, hproblem] at hproblem'
        cases hproblem'
        exact .inr ⟨e, he, he'⟩

end Rearranged

/-- The same definitions, the last one first. -/
def Registry.reversed (r : Registry) : Registry where
  root := r.root
  named := r.named.reverse
  root_role := r.root_role
  names_agree p hp := r.names_agree p (List.mem_reverse.1 hp)
  names_nodup := by
    rw [List.map_reverse, List.nodup_reverse]
    exact r.names_nodup

/-- The grammar `<items> <end>`, where `<items>` is `add*` and `<end>` is `total`. -/
def itemizedSums : Registry where
  root := .unplaced .root <| .concat [.ref ⟨"items", .unplaced⟩, .ref ⟨"end", .unplaced⟩]
  named := [
    ("items", .unplaced (.named "items" false)
      (.quantified (.literal ⟨"add", .unplaced⟩) .star)),
    ("end", .unplaced (.named "end" false) (.literal ⟨"total", .unplaced⟩))]
  root_role := rfl
  names_agree := by decide
  names_nodup := by decide

theorem compile_perm_itemizedSums : ∃ t t',
    ActionTable.ofActions? [.ofName "add", .ofName "total"] = .ok t ∧
    ActionTable.ofActions? [.ofName "total", .ofName "add"] = .ok t' ∧
    ∃ A A', (itemizedSums.compile t).1 = .ok A ∧ (itemizedSums.reversed.compile t').1 = .ok A' ∧
      (∀ p, ∃ text, A.dump p = .ok text ∧ A'.dump p = .ok text) ∧
      ∃ e, A.exported = .ok e ∧ A'.exported = .ok e := by
  have hcompiles : (ActionTable.ofActions? [.ofName "add", .ofName "total"]).toOption.map
      (fun t => (itemizedSums.compile t).1.isOk) = some true := by decide +kernel
  have hswap : [Action.ofName "add", .ofName "total"].Perm [.ofName "total", .ofName "add"] :=
    .swap _ _ _
  have hreversed : itemizedSums.named.Perm itemizedSums.reversed.named :=
    (List.reverse_perm _).symm
  have hroot : itemizedSums.root = itemizedSums.reversed.root := rfl
  rcases compile_perm hswap hroot hreversed with
    ⟨clash, -, hclash, -⟩ | ⟨t, t', ht, ht', hboth | ⟨e, he, -⟩⟩
  · rw [hclash] at hcompiles
    cases hcompiles
  · exact ⟨t, t', ht, ht', hboth⟩
  · rw [ht] at hcompiles
    simp [Except.toOption, he, Except.isOk, Except.toBool] at hcompiles

end CallChain
