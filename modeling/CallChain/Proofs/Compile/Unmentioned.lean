import CallChain.Proofs.Compile.References
import CallChain.Proofs.Renaming.Extension

/-!
# Unmentioned parts do not matter

What compiles mentions declared names only, in the bodies that are reached. So it compiles as well
over a table with further actions, which are not global and have names of their own: the words of
the root stay, and with them the shape of the automaton, so that its dump stays. And definitions
that are not reached take no part in the words of the root (`Registry.Agrees`).

* `exists_compile_extends`, `exists_compile_insert`: further actions.
* `Agrees.compile_eq`: further definitions.
* `compile_unmentioned`: both.
-/

namespace CallChain

variable {r r' : Registry} {t t' : ActionTable} {A : Automaton} {name : String}

namespace Registry

/-! ### Further actions -/

/-- What is grounded stays so where more names are declared. -/
theorem Grounded.mono {body : Regex} (h : r.Grounded t body)
    (hnames : ∀ name, t.containsName name = true → t'.containsName name = true) :
    r.Grounded t' body := by
  induction h with
  | intro hliterals hrefs _ ih =>
    exact .intro (fun name hname => hnames _ (hliterals name hname)) hrefs ih

/-- The bodies that are reached from a grounded root are grounded. -/
theorem Grounded.of_reaches (h : r.Grounded t r.root.body) (hname : r.Reaches name)
    {s : SubExpression} (hs : r.find? name = some s) : r.Grounded t s.body := by
  induction hname generalizing s with
  | root hname =>
    obtain ⟨s', hs', hgrounded⟩ := h.exists_find? hname
    rw [hs] at hs'
    cases hs'
    exact hgrounded
  | step _ hvia hname ih =>
    obtain ⟨s', hs', hgrounded⟩ := (ih hvia).exists_find? hname
    rw [hs] at hs'
    cases hs'
    exact hgrounded

/-- An environment that is right for a table is right for one with further actions. -/
theorem Solves.extends {env : String → Language SymbolKind} (henv : r.Solves t env)
    (h : t.Extends t') (hroot : r.Grounded t r.root.body) : r.Solves t' env := by
  intro name s hname hs
  have hbody := hroot.of_reaches hname hs
  rw [henv name s hname hs, s.language_extends h (grounded_iff.1 hbody).1]

end Registry

namespace Alphabet

variable {d d' : Dfa} {L : Language SymbolKind}

/-- Over a table with further actions, the automaton of a language has other handles only. -/
theorem exists_relabels_withTable (h : t.Extends t') (hd : (ofTable t).Represents d L)
    (hL : IsChain L) (hd' : (ofTable t').Represents d' L) :
    ∃ f, Automaton.Relabels (Equiv.refl ActionId) f ((chainAutomaton t d).canonical.withTable t')
      (chainAutomaton t' d').canonical := by
  have hwf := wellFormed_assembled (t := t) (d := (ofTable t).saturate t d)
  have hwf' := wellFormed_assembled (t := t') (d := (ofTable t').saturate t' d')
  have hcanonical := Automaton.wellFormed_canonical hwf
  refine Automaton.exists_relabels (fun chain => ?_)
    (Automaton.wellFormed_withTable hcanonical h) (Automaton.wellFormed_canonical hwf')
    (Automaton.distinct_withTable hcanonical h ((distinct_chainAutomaton hd hL).canonical hwf))
    ((distinct_chainAutomaton hd' hL).canonical hwf') ⟨(List.map_id _).symm, fun _ => rfl⟩
  -- both shapes are read off the same words, in which further actions do not occur
  have hshape := congrFun (Automaton.shape_canonical hwf Automaton.initial_mem_order) chain
  have hshape' := congrFun (Automaton.shape_canonical hwf' Automaton.initial_mem_order) chain
  rw [Automaton.place_initial, shape_chainAutomaton hd hL] at hshape
  rw [Automaton.place_initial, shape_chainAutomaton hd' hL,
    Position.afterAll_extends h fun taken id hid => mem_ids_of_offers hd hid] at hshape'
  rw [Equiv.coe_refl, List.map_id]
  exact hshape'.trans hshape.symm

end Alphabet

namespace Registry

/-- What compiles over a table compiles over one with further actions, to an automaton with the same
dumps. -/
theorem exists_compile_extends (h : t.Extends t') (hA : (r.compile t).1 = .ok A) :
    ∃ A', (r.compile t').1 = .ok A' ∧ ∀ p, A'.dump p = A.dump p := by
  have hgrounded := exists_compile_iff.1 ⟨A, hA⟩
  obtain ⟨A', hA'⟩ := exists_compile_iff.2 (hgrounded.mono fun _ => h.containsName)
  have hwf := wellFormed_of_compile_eq_ok hA
  have hwf' := wellFormed_of_compile_eq_ok hA'
  refine ⟨A', hA', fun p => ?_⟩
  obtain ⟨compiled, d, hmemo, hrefs, hd, rfl⟩ := exists_of_compile_eq_ok hA
  obtain ⟨compiled', d', hmemo', hrefs', hd', rfl⟩ := exists_of_compile_eq_ok hA'
  -- each table has its own environment, and the first one is right for both
  have henv := hmemo.solves hrefs
  have hlanguage : r.root.language t' (environment t' compiled') =
      r.root.language t (environment t compiled) := by
    rw [← hmemo'.language_root_eq hrefs' (henv.extends h hgrounded),
      r.root.language_extends h (grounded_iff.1 hgrounded).1]
  rw [hlanguage] at hd'
  obtain ⟨f, hf⟩ := Alphabet.exists_relabels_withTable h hd (isChain_root _) hd'
  rw [hf.dump_eq (Automaton.wellFormed_withTable hwf h) hwf' p,
    Automaton.dump_withTable hwf h p]

/-- A further action may be declared anywhere: it is declared last, and then moved to its place. -/
theorem exists_compile_insert {before after : List Action} {new : Action}
    (hactions : t.actions = before ++ after) (hglobal : new.isGlobal = false)
    (hname : t.containsName new.name = false) (hA : (r.compile t).1 = .ok A) :
    ∃ t' A', ActionTable.ofActions? (before ++ new :: after) = .ok t' ∧
      (r.compile t').1 = .ok A' ∧ ∀ p, A'.dump p = A.dump p := by
  have hnew := ActionTable.containsName_eq_false_iff.1 hname
  have hclash := t.no_clash
  rw [hactions] at hnew hclash
  have hlast : firstClash (inCanonicalOrder (before ++ after ++ [new])) = none :=
    ActionTable.firstClash_insert (by rwa [List.append_nil]) (by rwa [List.append_nil])
  have hmiddle := ActionTable.firstClash_insert hclash hnew
  have hextends : t.Extends ⟨_, _, rfl, hlast⟩ :=
    ActionTable.extends_append (by rw [hactions]) hglobal hname
  obtain ⟨A₁, hA₁, hdump⟩ := exists_compile_extends hextends hA
  obtain ⟨σ, hσ⟩ : ∃ σ, ActionTable.Renames σ ⟨_, _, rfl, hlast⟩ ⟨_, _, rfl, hmiddle⟩ := by
    refine ActionTable.exists_renames ?_
    exact (List.perm_append_singleton new _).trans List.perm_middle.symm
  have hgrounded := exists_compile_iff.1 ⟨A₁, hA₁⟩
  obtain ⟨A₂, hA₂⟩ := exists_compile_iff.2
    (hgrounded.mono fun _ hname => hσ.containsName_eq.trans hname)
  obtain ⟨hwf₁, hwf₂, f, hf⟩ := relabels_of_compile_eq_ok ⟨rfl, .refl _⟩ hσ hA₁ hA₂
  refine ⟨_, A₂, ActionTable.ofActions?_eq_ok hmiddle, hA₂, fun p => ?_⟩
  rw [hf.dump_eq hwf₁ hwf₂ p, hdump p]

/-! ### Definitions that are not reached -/

/-- The second registry has the root of the first one, and the same definitions of all names that
are reached from it. -/
structure Agrees (r r' : Registry) : Prop where
  root_eq : r'.root = r.root
  find?_eq : ∀ name, r.Reaches name → r'.find? name = r.find? name

/-- Defining a name that is not reached. -/
theorem agrees_of_define {s : SubExpression} {old : Option SubExpression} (hs : s.name = some name)
    (hdefine : r.define s = .ok (old, r')) (hname : ¬ r.Reaches name) : r.Agrees r' := by
  unfold define at hdefine
  split at hdefine
  · cases hdefine
  · next name' hs' =>
    rw [hs] at hs'
    cases hs'
    cases hdefine
    refine ⟨rfl, fun other hother => ?_⟩
    have hne : other ≠ name := by
      rintro rfl
      exact hname hother
    rw [find?, lookup_replaceNamed, if_neg hne]
    rfl

namespace Agrees

variable (h : r.Agrees r')

include h

theorem reaches (hname : r.Reaches name) : r'.Reaches name := by
  induction hname with
  | root hname => exact .root (h.root_eq ▸ hname)
  | step hvia hs hname ih => exact .step ih ((h.find?_eq _ hvia).trans hs) hname

/-- An environment that is right for the second registry is right for the first. -/
theorem solves {env : String → Language SymbolKind} (henv : r'.Solves t env) : r.Solves t env :=
  fun name s hname hs => henv name s (h.reaches hname) ((h.find?_eq name hname).trans hs)

theorem grounded {body : Regex} (hbody : r.Grounded t body)
    (hreached : ∀ name ∈ body.refs, r.Reaches name.text) : r'.Grounded t body := by
  induction hbody with
  | @intro body hliterals hrefs _ ih =>
    refine grounded_iff.2 ⟨hliterals, fun name hname => ?_⟩
    obtain ⟨s, hs⟩ := Option.isSome_iff_exists.1 (hrefs name hname)
    refine ⟨s, (h.find?_eq _ (hreached name hname)).trans hs, ih _ ⟨name, hname, s, hs, rfl⟩ ?_⟩
    exact fun other hother => .step (hreached name hname) hs hother

/-- Definitions that are not reached do not show in what is compiled. -/
theorem compile_eq (hA : (r.compile t).1 = .ok A) : (r'.compile t).1 = .ok A := by
  have hgrounded := exists_compile_iff.1 ⟨A, hA⟩
  have hgrounded' : r'.Grounded t r'.root.body := by
    rw [h.root_eq]
    exact h.grounded hgrounded fun name hname => .root hname
  obtain ⟨A', hA'⟩ := exists_compile_iff.2 hgrounded'
  rw [hA']
  refine congrArg Except.ok (automaton_eq_of_language hA hA' fun env env' henv henv' => ?_)
  rw [h.root_eq]
  exact (Rewrites.refl r).language_root_eq henv (h.solves henv') hgrounded

end Agrees

end Registry

/-- What is not mentioned does not matter. Where a registry compiles over a table, it compiles over
any table with one action more, wherever this is declared, if this is not global and its name is no
other action's, and the automaton has the same dumps. And every registry with the same root and the
same definitions of the names that are reached compiles to the same automaton, whatever else it
defines. -/
theorem compile_unmentioned (hA : (r.compile t).1 = .ok A) :
    (∀ before after new, t.actions = before ++ after → new.isGlobal = false →
      t.containsName new.name = false →
      ∃ t' A', ActionTable.ofActions? (before ++ new :: after) = .ok t' ∧
        (r.compile t').1 = .ok A' ∧ ∀ p, ∃ text, A.dump p = .ok text ∧ A'.dump p = .ok text) ∧
    ∀ r' : Registry, r'.root = r.root →
      (∀ name, r.Reaches name → r'.find? name = r.find? name) →
      (r'.compile t).1 = .ok A ∧ ∀ p, ∃ text, A.dump p = .ok text := by
  have hwf := wellFormed_of_compile_eq_ok hA
  constructor
  · intro before after new hactions hglobal hname
    obtain ⟨t', A', ht', hA', hdump⟩ := Registry.exists_compile_insert hactions hglobal hname hA
    refine ⟨t', A', ht', hA', fun p => ?_⟩
    obtain ⟨text, htext⟩ := Automaton.exists_dump hwf p
    exact ⟨text, htext, (hdump p).trans htext⟩
  · intro r' hroot hfind
    exact ⟨Registry.Agrees.compile_eq ⟨hroot, hfind⟩ hA, fun p => Automaton.exists_dump hwf p⟩

/-- A terminator that no grammar mentions. -/
def quit : Action := { Action.ofName "quit" with isTerminator := true }

/-- A definition of `<loop>` by itself and by a name that nothing declares. -/
def loop : SubExpression := .unplaced (.named "loop" true)
  (.concat [.ref ⟨"loop", .unplaced⟩, .literal ⟨"nothing", .unplaced⟩])

theorem compile_unmentioned_itemizedSums : ∃ A, (itemizedSums.compile sumActions).1 = .ok A ∧
    (∃ t' A', ActionTable.ofActions? [.ofName "add", quit, .ofName "total"] = .ok t' ∧
      (itemizedSums.compile t').1 = .ok A' ∧
      ∀ p, ∃ text, A.dump p = .ok text ∧ A'.dump p = .ok text) ∧
    ∃ r', itemizedSums.define loop = .ok (none, r') ∧ (r'.compile sumActions).1 = .ok A := by
  have hcompiles : (itemizedSums.compile sumActions).1.isOk = true := by decide +kernel
  have hreached {name : String} (hname : itemizedSums.Reaches name) :
      name = "items" ∨ name = "end" := by
    induction hname with
    | root hname =>
      rcases List.mem_cons.1 (show _ ∈ [_, _] from hname) with rfl | hname
      · exact .inl rfl
      · exact .inr (congrArg Name.text (List.mem_singleton.1 hname))
    | step _ hs hname ih =>
      rcases ih with rfl | rfl
      all_goals
        cases hs
        cases hname
  cases hA : (itemizedSums.compile sumActions).1 with
  | error e =>
    rw [hA] at hcompiles
    cases hcompiles
  | ok A =>
    obtain ⟨hactions, hdefinitions⟩ := compile_unmentioned hA
    refine ⟨A, rfl, hactions [.ofName "add"] [.ofName "total"] quit rfl rfl (by decide), _, rfl, ?_⟩
    have hfree : ¬ itemizedSums.Reaches "loop" := fun hname => by simpa using hreached hname
    have hagrees := Registry.agrees_of_define (r := itemizedSums) (s := loop) rfl rfl hfree
    exact (hdefinitions _ hagrees.root_eq hagrees.find?_eq).1

end CallChain
