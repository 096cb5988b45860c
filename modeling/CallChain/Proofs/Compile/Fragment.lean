import CallChain.Compile.Fragment
import CallChain.Proofs.Compile.Scope

/-!
# Automata of fragments over actions and anchors

What the operators of a compilation make of represented languages.

* `exists_nonEmptyWords`: a fragment, or a body, without the empty word.
* `exists_anchoredScope`: a scope with its start anchor.
-/

namespace CallChain

namespace Nfa

variable {n n' : Nfa} {made : Nfa × Fragment} {R S : Set Nat} {f : Fragment} {L : Language Nat}

theorem added_union (h : n.size ≤ n'.size) {n'' : Nfa} (h' : n'.size ≤ n''.size) :
    n.added n' ∪ n'.added n'' = n.added n'' := by
  ext q
  simp only [added, Set.mem_union, Set.mem_ofPred_eq]
  omega

theorem disjoint_added (n'' : Nfa) : Disjoint (n.added n') (n'.added n'') :=
  Set.disjoint_left.2 fun _ hq hq' => Nat.not_lt.2 hq'.1 hq.2

/-- A construction that uses up what another one added. -/
theorem Makes.after (hchanges : Changes ∅ n n') (h : Makes n' (n.added n') made L) :
    Makes n ∅ made L := by
  refine ⟨hchanges.trans h.changes (by rw [Set.empty_union]), ?_⟩
  have hholds := h.holds
  rw [added_union hchanges.size_le h.changes.size_le] at hholds
  rwa [Set.empty_union]

/-- What a construction on nothing makes is a new region. -/
theorem Makes.holds_added (h : Makes n ∅ made L) : made.1.Holds (n.added made.1) made.2 L := by
  have hholds := h.holds
  rwa [Set.empty_union] at hholds

theorem added_ofAlphabet (alphabet : Nat) (n : Nfa) :
    (ofAlphabet alphabet).added n = {q | q < n.size} := by
  ext q
  exact ⟨fun h => h.2, fun h => ⟨Nat.zero_le q, h⟩⟩

/-- An automaton that was made from nothing has no steps to missing nodes. -/
theorem Makes.wellFormed {alphabet : Nat} (h : Makes (ofAlphabet alphabet) ∅ made L) :
    made.1.WellFormed := by
  have hregion := h.holds_added.toRegion
  rwa [added_ofAlphabet] at hregion

theorem Makes.entry_lt (h : Makes n ∅ made L) : made.2.entry < made.1.size :=
  h.holds_added.lt_size _ h.holds_added.entry_mem

theorem Makes.exit_lt (h : Makes n ∅ made L) : made.2.exit < made.1.size :=
  h.holds_added.lt_size _ h.holds_added.exit_mem

/-- The nonempty words of a fragment have an automaton. -/
theorem exists_nonEmptyWords (hn : n.WellFormed) (hentry : f.entry < n.size) :
    ∃ d, n.nonEmptyWords f = .ok d ∧ d.WellFormed ∧ d.alphabet = n.alphabet ∧
      ∀ w, w ∈ d.words ↔ w ∈ n.words f ∧ w ≠ [] := by
  have hwords : (n.determinize f).WellFormed := wellFormed_determinize f
  have hempty := Dfa.wellFormed_emptyWord n.alphabet
  have hcomplement := Dfa.wellFormed_complement hempty
  obtain ⟨m, hm⟩ := Dfa.exists_intersect hwords hcomplement rfl
  have hwf := Dfa.wellFormed_intersect hwords hcomplement hm
  refine ⟨m.minimize, ?_, (Dfa.minimal_minimize hwf).toWellFormed, ?_, ?_⟩
  · rw [nonEmptyWords, determinized_eq hn hentry, ok_bind, Dfa.complemented_eq hempty, ok_bind, hm,
      ok_bind]
    exact Dfa.minimized_eq hwf
  · exact (Dfa.alphabet_intersect hwords hcomplement hm :)
  · intro w
    rw [Dfa.words_minimize hwf, Dfa.mem_words_intersect hwords hcomplement hm,
      Dfa.mem_words_complement hempty, Dfa.mem_words_emptyWord, ← words_determinize hn hentry]
    constructor
    · rintro ⟨hw, -, hne⟩
      exact ⟨hw, hne⟩
    · rintro ⟨hw, hne⟩
      exact ⟨hw, hwords.lt_alphabet_of_mem hw, hne⟩

end Nfa

namespace Alphabet

variable {t : ActionTable} {a : Alphabet} {d : Dfa} {L M : Language SymbolKind} {n : Nfa}
  {made : Nfa × Fragment} {f : Fragment}

theorem Represents.minimize (h : a.Represents d L) : a.Represents d.minimize L where
  toWellFormed := (Dfa.minimal_minimize h.toWellFormed).toWellFormed
  alphabet_eq := h.alphabet_eq
  words_eq := (Dfa.words_minimize h.toWellFormed).trans h.words_eq

theorem represents_determinize (h : Nfa.Makes (.ofAlphabet a.size) ∅ made (L.map a.code)) :
    a.Represents (made.1.determinize made.2) L where
  toWellFormed := Nfa.wellFormed_determinize _
  alphabet_eq := h.changes.alphabet_eq
  words_eq := (Nfa.words_determinize h.wellFormed h.entry_lt).trans h.holds.words_eq

theorem determinized_eq (h : Nfa.Makes (.ofAlphabet a.size) ∅ made (L.map a.code)) :
    made.1.determinized made.2 = .ok (made.1.determinize made.2) :=
  Nfa.determinized_eq h.wellFormed h.entry_lt

/-- The automaton of a body without the empty word. -/
theorem exists_nonEmptyWords
    (h : Nfa.Makes (.ofAlphabet (ofTable t).size) ∅ made (L.map (ofTable t).code)) :
    ∃ d, made.1.nonEmptyWords made.2 = .ok d ∧
      (ofTable t).Represents d {w | w ∈ L ∧ w ≠ []} := by
  obtain ⟨d, hd, hwf, halphabet, hwords⟩ := Nfa.exists_nonEmptyWords h.wellFormed h.entry_lt
  refine ⟨d, hd, represents_of_mem_iff hwf (halphabet.trans h.changes.alphabet_eq) ?_⟩
  intro v
  have hv : v.map (ofTable t).code ∈ made.1.words made.2 ↔ v ∈ L := by
    rw [h.holds.words_eq, map_mem_map_iff (ofTable t).code_injective]
  rw [hwords, hv, ne_eq, List.map_eq_nil_iff]
  rfl

theorem map_singleton (k : SymbolKind) :
    Language.map a.code {[k]} = ({[a.code k]} : Language Nat) := by
  ext w
  rw [mem_map_iff]
  constructor
  · rintro ⟨v, rfl, rfl⟩
    rfl
  · rintro rfl
    exact ⟨[k], rfl, rfl⟩

/-- The symbols of a name are the words of its overloads. -/
theorem rangeWords_eq {name : String} {range : SymbolRange}
    (hrange : ∀ s, range.contains s = true ↔
      ∃ id ∈ t.members name, (ofTable t).action? s = some id) :
    Nfa.rangeWords range = (t.overloads name).map (ofTable t).code := by
  ext w
  rw [mem_map_iff]
  constructor
  · rintro ⟨s, hs, rfl⟩
    obtain ⟨id, hid, haction⟩ := (hrange s).1 hs
    refine ⟨[.action id], ⟨id, hid, rfl⟩, ?_⟩
    have hmem : id ∈ (ofTable t).actions := List.mem_of_getElem? haction
    rw [List.map_singleton, code_action hmem, symbol_of_action? (nodup_actions t) haction]
  · rintro ⟨_, ⟨id, hid, rfl⟩, rfl⟩
    have hmem : id ∈ (ofTable t).actions := by
      rw [mem_actions, ActionTable.mem_ids]
      obtain ⟨action, hget, -⟩ := ActionTable.mem_members.1 hid
      exact ⟨action, hget⟩
    refine ⟨(ofTable t).symbol id, (hrange _).2 ⟨id, hid, action?_symbol hmem⟩, ?_⟩
    rw [List.map_singleton, code_action hmem]

/-! ### Scopes -/

/-- The start anchor of a scope, which may be left away, and the body behind it. -/
def startable (a : Alphabet) (n : Nfa) (body : Fragment) : Nfa × Fragment :=
  let mark := n.symbol (a.anchorSymbol .start)
  let start := mark.1.optional mark.2
  start.1.sequence [start.2, body]

/-- Each step of `startable` finds its nodes. -/
theorem makes_startable {body : Fragment}
    (h : Nfa.Makes (.ofAlphabet a.size) ∅ (n, body) (L.map a.code)) :
    let mark := n.symbol (a.anchorSymbol .start)
    let start := mark.1.optional mark.2
    n.makeSymbol (a.anchorSymbol .start) = .ok mark ∧ mark.1.makeOptional mark.2 = .ok start ∧
      start.1.makeSequence [start.2, body] = .ok (a.startable n body) ∧
      Nfa.Makes (.ofAlphabet a.size) ∅ (a.startable n body)
        (((1 + {[.anchor .start]}) * L).map a.code) := by
  have hlt : a.anchorSymbol .start < n.alphabet := by
    rw [show n.alphabet = a.size from h.changes.alphabet_eq]
    exact anchorSymbol_lt a .start
  have hsymbol := Nfa.makes_symbol hlt
  have hoptional := (Nfa.makes_optional hsymbol.holds_added).after hsymbol.changes
  have hbody := h.holds_added.of_changes hoptional.changes (Set.disjoint_empty _)
  have hdisjoint (n' : Nfa) :
      Disjoint (n.added n') ((Nfa.ofAlphabet a.size).added n ∪ ∅) := by
    rw [Set.union_empty]
    exact (Nfa.disjoint_added n').symm
  have hrow := Nfa.Aligned.cons hoptional.holds_added (.cons hbody .nil (Set.disjoint_empty _))
    (hdisjoint _)
  refine ⟨Nfa.makeSymbol_eq hlt, Nfa.makeOptional_eq hsymbol.exit_lt,
    Nfa.makeSequence_eq hrow.exit_lt, ?_⟩
  rw [Set.union_empty, Set.union_comm,
    Nfa.added_union h.changes.size_le hoptional.changes.size_le] at hrow
  have hmakes := (Nfa.makes_sequence hrow).after
    (h.changes.trans hoptional.changes (Set.empty_subset _))
  rw [map_mul, map_add, map_one, map_singleton, code_anchor]
  rwa [List.prod_cons, List.prod_singleton] at hmakes

theorem mem_startable_iff {k : SymbolKind} {w : List SymbolKind} :
    w ∈ (1 + {[k]}) * L ↔ w ∈ L ∨ ∃ v ∈ L, w = k :: v := by
  rw [add_mul, one_mul, Language.mem_add]
  refine or_congr_right ?_
  rw [Language.mem_mul]
  constructor
  · rintro ⟨_, rfl, v, hv, rfl⟩
    exact ⟨v, hv, rfl⟩
  · rintro ⟨v, hv, rfl⟩
    exact ⟨[k], rfl, v, hv, rfl⟩

theorem mem_anchored_iff {w : List SymbolKind} : w ∈ anchored L ↔
    w ∈ (1 + {[.anchor .start]}) * L ∧ ∃ v, w = .anchor .start :: v ∧ .anchor .start ∉ v := by
  constructor
  · rintro ⟨v, ⟨hfree, hv⟩, rfl⟩
    exact ⟨mem_startable_iff.2 (hv.symm.imp_right fun hv => ⟨v, hv, rfl⟩), v, rfl, hfree⟩
  · rintro ⟨hw, v, rfl, hfree⟩
    refine ⟨v, ⟨hfree, ?_⟩, rfl⟩
    rcases mem_startable_iff.1 hw with hw | ⟨v, hv, heq⟩
    · exact .inr hw
    · cases heq
      exact .inl hv

/-- The words that begin with a start anchor and hold no other, by what their symbols stand for. -/
theorem IsScopeLanguage.mem_iff {scope : Dfa} (h : a.IsScopeLanguage scope) {w : List SymbolKind}
    (hw : ∀ k ∈ w, a.code k < a.size) :
    w.map a.code ∈ scope.words ↔ ∃ v, w = .anchor .start :: v ∧ .anchor .start ∉ v := by
  rw [h.mem_words_iff]
  constructor
  · rintro ⟨v, heq, hv⟩
    obtain ⟨k, w, rfl, hk, rfl⟩ := List.map_eq_cons_iff.1 heq
    obtain rfl : k = .anchor .start := code_injective _ hk
    exact ⟨w, rfl, fun hmem => (hv _ (List.mem_map_of_mem hmem)).2 rfl⟩
  · rintro ⟨v, rfl, hfree⟩
    refine ⟨v.map a.code, rfl, List.forall_mem_map.2 fun k hk => ⟨?_, fun heq => ?_⟩⟩
    · exact hw k (List.mem_cons_of_mem _ hk)
    · obtain rfl : k = .anchor .start := code_injective _ heq
      exact hfree hk

/-- The automaton of a scope with its start anchor. -/
theorem exists_anchored
    (h : Nfa.Makes (.ofAlphabet (ofTable t).size) ∅ made
      (((1 + {[.anchor .start]}) * L).map (ofTable t).code)) :
    ∃ scope m, (ofTable t).scopeLanguage = .ok scope ∧
      (made.1.determinize made.2).intersect scope = .ok m ∧
      (ofTable t).Represents m (anchored L) ∧
      ∀ s, m.next m.initial s ≠ some m.initial := by
  have hd := represents_determinize h
  obtain ⟨scope, hscope, hspells⟩ := exists_scopeLanguage (ofTable t)
  have hwf := hspells.toWellFormed
  obtain ⟨m, hm⟩ := Dfa.exists_intersect hd.toWellFormed hwf
    (hd.alphabet_eq.trans hspells.alphabet_eq.symm)
  refine ⟨scope, m, hscope, hm,
    represents_of_mem_iff (Dfa.wellFormed_intersect hd.toWellFormed hwf hm) ?_ ?_, ?_⟩
  · rw [Dfa.alphabet_intersect hd.toWellFormed hwf hm]
    exact hd.alphabet_eq
  · intro w
    rw [Dfa.mem_words_intersect hd.toWellFormed hwf hm, hd.mem_iff, mem_anchored_iff]
    refine and_congr_right fun hw => hspells.mem_iff fun k hk => ?_
    rw [← hd.alphabet_eq]
    exact hd.lt_alphabet_of_mem (hd.mem_iff.2 hw) _ (List.mem_map_of_mem hk)
  · intro s hloop
    exact hspells.next_initial_ne s (Dfa.next_of_next_intersect hd.toWellFormed hwf hm hloop)

/-- The smallest automaton of the words of a body with their start anchor, which a body may spell
out or leave away. -/
def anchoredScope (a : Alphabet) (n : Nfa) (body : Fragment) : Except Fault Dfa := do
  let (n, start) ← n.makeSymbol (a.anchorSymbol .start)
  let (n, start) ← n.makeOptional start
  let (n, whole) ← n.makeSequence [start, body]
  let words ← n.determinized whole
  let anchored ← words.intersect (← a.scopeLanguage)
  anchored.minimized

/-- Where the body has no words nothing leads back to the initial state. -/
theorem exists_anchoredScope {body : Fragment}
    (h : Nfa.Makes (.ofAlphabet (ofTable t).size) ∅ (n, body) (L.map (ofTable t).code)) :
    ∃ m, (ofTable t).anchoredScope n body = .ok m ∧ m.Minimal ∧
      (ofTable t).Represents m (anchored L) ∧
      (m.words = 0 → ∀ s, m.next m.initial s ≠ some m.initial) := by
  obtain ⟨hmark, hstart, hsequence, hwhole⟩ := makes_startable h
  obtain ⟨scope, m, hscope, hm, hrepresents, hloop⟩ := exists_anchored hwhole
  have hwf := hrepresents.toWellFormed
  refine ⟨m.minimize, ?_, Dfa.minimal_minimize hwf, hrepresents.minimize, ?_⟩
  · simp only [anchoredScope, hmark, hstart, hsequence, determinized_eq hwhole, hscope, hm, ok_bind]
    exact Dfa.minimized_eq hwf
  · intro hempty s hnext
    rw [Dfa.words_minimize hwf] at hempty
    exact hloop s ((Dfa.next_minimize_initial_iff hwf hempty).1 hnext)

end Alphabet
end CallChain
