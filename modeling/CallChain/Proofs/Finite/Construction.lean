import CallChain.Proofs.Finite.Combinators

/-!
# Programs of combinator calls

An automaton is built by calls of combinators, each of which makes one fragment from fragments that
earlier calls made. As long as no fragment is an operand twice, the fragments that are not used yet
own regions apart from each other (`Owns`): a call puts the regions of its operands together with
the nodes that it adds, and leaves all others alone.

* `Owns.exists_build`: what a call makes.
* `Owns.of_makes`: what a call leaves alone.
* `Construction.MadeBy.exists_call`: one more call of a program.
* `exists_construct`: every program of calls.
* `construct_words`: the words of all fragments, at any time before they are used.
-/

namespace CallChain.Nfa

open scoped Computability

/-! ### Calls -/

/-- A call of a combinator. Operands are given by the numbers of the calls that made them. -/
inductive Call where
  | symbol (s : Nat)
  | symbols (range : SymbolRange)
  | epsilon
  | nothing
  | sequence (operands : List Nat)
  | alternation (operands : List Nat)
  | star (operand : Nat)
  | plus (operand : Nat)
  | optional (operand : Nat)
  | embed (d : Dfa)

namespace Call

def operands : Call → List Nat
  | sequence operands => operands
  | alternation operands => operands
  | star operand => [operand]
  | plus operand => [operand]
  | optional operand => [operand]
  | symbol _ => []
  | symbols _ => []
  | epsilon => []
  | nothing => []
  | embed _ => []

/-- Symbols are those of the alphabet, and what is embedded is a proper automaton over it. -/
def Fits (alphabet : Nat) : Call → Prop
  | symbol s => s < alphabet
  | symbols range => range.stop ≤ alphabet
  | embed d => d.WellFormed ∧ d.alphabet = alphabet
  | _ => True

/-- The automaton behind a call, and the fragment that the call makes. -/
def build (fragment : Nat → Fragment) (n : Nfa) : Call → Except Fault (Nfa × Fragment)
  | symbol s => n.makeSymbol s
  | symbols range => n.makeSymbols range
  | epsilon => n.makeEpsilon
  | nothing => .ok n.nothing
  | sequence operands => n.makeSequence (operands.map fragment)
  | alternation operands => n.makeAlternation (operands.map fragment)
  | star operand => n.makeStar (fragment operand)
  | plus operand => n.makePlus (fragment operand)
  | optional operand => n.makeOptional (fragment operand)
  | embed d => n.embed d

/-- The operation on languages that a call stands for. -/
def meaning (language : Nat → Language Nat) : Call → Language Nat
  | symbol s => {[s]}
  | symbols range => rangeWords range
  | epsilon => 1
  | nothing => 0
  | sequence operands => (operands.map language).prod
  | alternation operands => (operands.map language).sum
  | star operand => (language operand)∗
  | plus operand => language operand * (language operand)∗
  | optional operand => 1 + language operand
  | embed d => d.words

end Call

/-! ### Programs -/

/-- An automaton under construction, with the fragments that were made so far. -/
structure Construction where
  nfa : Nfa
  fragments : List Fragment

namespace Construction

variable (c : Construction)

/-- The fragment that a call made. -/
def fragment (i : Nat) : Fragment := c.fragments.getD i ⟨0, 0⟩

def call (call : Call) : Except Fault Construction := do
  let (n, f) ← call.build c.fragment c.nfa
  return ⟨n, c.fragments ++ [f]⟩

end Construction

/-- The construction that some calls make, one after the other. -/
def construct (alphabet : Nat) (calls : List Call) : Except Fault Construction :=
  calls.foldlM Construction.call ⟨.ofAlphabet alphabet, []⟩

/-- The languages that calls stand for, in turn. -/
def languages (calls : List Call) : List (Language Nat) :=
  calls.foldl (fun languages call => languages ++ [call.meaning (languages.getD · 0)]) []

/-- The fragments that calls use as operands. -/
def used (calls : List Call) : List Nat := calls.flatMap Call.operands

/-- Operands were made by earlier calls, and each is used once. -/
structure Proper (alphabet : Nat) (calls : List Call) : Prop where
  earlier : ∀ k (call : Call), calls[k]? = some call → ∀ i ∈ call.operands, i < k
  once : (used calls).Nodup
  fits : ∀ call ∈ calls, call.Fits alphabet

variable {n : Nfa} {unused : Set Nat} {fragment : Nat → Fragment} {language : Nat → Language Nat}
  {regions : Nat → Set Nat} {operands : List Nat}
  {made : Nfa × Fragment} {L : Language Nat} {call : Call} {calls : List Call} {alphabet : Nat}

/-! ### One call -/

variable (n) in
/-- The fragments that are not used yet have their words, and regions apart from each other. -/
structure Owns (unused : Set Nat) (fragment : Nat → Fragment) (language : Nat → Language Nat)
    (regions : Nat → Set Nat) : Prop where
  holds : ∀ i ∈ unused, n.Holds (regions i) (fragment i) (language i)
  disjoint : ∀ i ∈ unused, ∀ j ∈ unused, i ≠ j → Disjoint (regions i) (regions j)

/-- The regions of some fragments together. -/
def together (regions : Nat → Set Nat) (operands : List Nat) : Set Nat :=
  {q | ∃ i ∈ operands, q ∈ regions i}

theorem together_cons (i : Nat) (operands : List Nat) :
    together regions (i :: operands) = regions i ∪ together regions operands := by
  ext q
  simp [together]

theorem together_nil : together regions [] = ∅ := by
  ext q
  simp [together]

theorem together_singleton (i : Nat) : together regions [i] = regions i := by
  rw [together_cons, together_nil, Set.union_empty]

theorem Owns.disjoint_together (h : n.Owns unused fragment language regions) {i : Nat}
    (hi : i ∈ unused) (hoperands : ∀ j ∈ operands, j ∈ unused) (hfresh : i ∉ operands) :
    Disjoint (regions i) (together regions operands) := by
  rw [Set.disjoint_left]
  rintro q hq ⟨j, hj, hqj⟩
  have hne : i ≠ j := by
    rintro rfl
    exact hfresh hj
  exact Set.disjoint_left.1 (h.disjoint i hi j (hoperands j hj) hne) hq hqj

/-- Different fragments that are not used yet stand side by side. -/
theorem Owns.aligned (h : n.Owns unused fragment language regions)
    (hoperands : ∀ i ∈ operands, i ∈ unused) (hnodup : operands.Nodup) :
    n.Aligned (together regions operands) (operands.map fragment) (operands.map language) := by
  induction operands with
  | nil =>
    rw [together_nil]
    exact .nil
  | cons i operands ih =>
    rw [List.forall_mem_cons] at hoperands
    rw [List.nodup_cons] at hnodup
    rw [together_cons]
    refine .cons (h.holds i hoperands.1) (ih hoperands.2 hnodup.2) ?_
    exact h.disjoint_together hoperands.1 hoperands.2 hnodup.1

/-- A call makes a fragment with the language that it stands for, in the regions of its operands and
new nodes. -/
theorem Owns.exists_build (h : n.Owns unused fragment language regions)
    (hoperands : ∀ i ∈ call.operands, i ∈ unused) (hnodup : call.operands.Nodup)
    (hfits : call.Fits n.alphabet) :
    ∃ made, call.build fragment n = .ok made ∧
      Makes n (together regions call.operands) made (call.meaning language) := by
  have hnone {made : Nfa × Fragment} {L : Language Nat} (hmakes : Makes n ∅ made L) :
      Makes n (together regions []) made L := by
    rwa [together_nil]
  have hone {i : Nat} (hi : ∀ j ∈ [i], j ∈ unused) {m : Except Fault (Nfa × Fragment)}
      {made : Nfa × Fragment} {L : Language Nat} (hmake : (fragment i).exit < n.size → m = .ok made)
      (hmakes : n.Holds (regions i) (fragment i) (language i) → Makes n (regions i) made L) :
      ∃ made, m = .ok made ∧ Makes n (together regions [i]) made L := by
    have hholds := h.holds i (hi i (List.mem_singleton_self i))
    rw [together_singleton]
    exact ⟨made, hmake (hholds.lt_size _ hholds.exit_mem), hmakes hholds⟩
  cases call with
  | symbol s => exact ⟨_, makeSymbol_eq hfits, hnone (makes_symbol hfits)⟩
  | symbols range => exact ⟨_, makeSymbols_eq hfits, hnone (makes_symbols hfits)⟩
  | epsilon => exact ⟨_, makeEpsilon_eq, hnone makes_epsilon⟩
  | nothing => exact ⟨_, rfl, hnone (makes_alternation .nil)⟩
  | sequence operands =>
    have haligned := h.aligned hoperands hnodup
    exact ⟨_, makeSequence_eq haligned.exit_lt, makes_sequence haligned⟩
  | alternation operands =>
    have haligned := h.aligned hoperands hnodup
    exact ⟨_, makeAlternation_eq haligned.exit_lt, makes_alternation haligned⟩
  | star operand => exact hone hoperands makeStar_eq makes_star
  | plus operand => exact hone hoperands makePlus_eq makes_plus
  | optional operand => exact hone hoperands makeOptional_eq makes_optional
  | embed d =>
    obtain ⟨made, hmade, hmakes⟩ := exists_embed hfits.1 hfits.2
    exact ⟨made, hmade, hnone hmakes⟩

/-- What a call does not use stays what it was, apart from the fragment that is made. -/
theorem Owns.of_makes (h : n.Owns unused fragment language regions)
    (hoperands : ∀ i ∈ operands, i ∈ unused)
    (hmakes : Makes n (together regions operands) made L) {k : Nat} (hk : k ∉ unused)
    (fragment' : Nat → Fragment) (language' : Nat → Language Nat)
    (hold : ∀ i ∈ unused, fragment' i = fragment i ∧ language' i = language i)
    (hnew : fragment' k = made.2 ∧ language' k = L) :
    ∃ regions', made.1.Owns ({i | i ∈ unused ∧ i ∉ operands} ∪ {k}) fragment' language'
      regions' := by
  let region : Set Nat := together regions operands ∪ n.added made.1
  have hupdate {i : Nat} (hi : i ∈ unused) : Function.update regions k region i = regions i := by
    apply Function.update_of_ne
    rintro rfl
    exact hk hi
  have hapart {i : Nat} (hi : i ∈ unused) (hfresh : i ∉ operands) :
      Disjoint (regions i) region := by
    refine Set.disjoint_union_right.2 ⟨h.disjoint_together hi hoperands hfresh, ?_⟩
    exact (h.holds i hi).toRegion.disjoint_added _
  refine ⟨Function.update regions k region, ⟨?_, ?_⟩⟩
  · rintro i (⟨hi, hfresh⟩ | rfl)
    · rw [hupdate hi, (hold i hi).1, (hold i hi).2]
      exact (h.holds i hi).of_changes hmakes.changes (h.disjoint_together hi hoperands hfresh)
    · rw [Function.update_self, hnew.1, hnew.2]
      exact hmakes.holds
  · -- old regions were apart before, and the new one is made of used regions and new nodes
    rintro i (⟨hi, hfresh⟩ | rfl) j (⟨hj, hfresh'⟩ | rfl) hne
    · rw [hupdate hi, hupdate hj]
      exact h.disjoint i hi j hj hne
    · rw [hupdate hi, Function.update_self]
      exact hapart hi hfresh
    · rw [hupdate hj, Function.update_self]
      exact (hapart hj hfresh').symm
    · exact absurd rfl hne

/-! ### Every program -/

theorem Proper.lt_length_of_mem_used (h : Proper alphabet calls) {i : Nat} (hi : i ∈ used calls) :
    i < calls.length := by
  obtain ⟨call, hcall, hi⟩ := List.mem_flatMap.1 hi
  obtain ⟨k, hk⟩ := List.mem_iff_getElem?.1 hcall
  exact Nat.lt_trans (h.earlier k call hk i hi) (List.getElem?_eq_some_iff.1 hk).1

/-- What a program begins with is a program. -/
theorem Proper.of_append {rest : List Call} (h : Proper alphabet (calls ++ rest)) :
    Proper alphabet calls where
  earlier k call hk := by
    refine h.earlier k call ?_
    rw [List.getElem?_append_left (List.getElem?_eq_some_iff.1 hk).1, hk]
  once := by
    have honce := h.once
    rw [used, List.flatMap_append] at honce
    exact honce.of_append_left
  fits call hcall := h.fits call (List.mem_append_left _ hcall)

theorem used_append_singleton : used (calls ++ [call]) = used calls ++ call.operands := by
  simp [used]

theorem languages_append_singleton : languages (calls ++ [call]) =
    languages calls ++ [call.meaning ((languages calls).getD · 0)] := by
  simp [languages]

@[simp] theorem length_languages : (languages calls).length = calls.length := by
  induction calls using List.reverseRecOn with
  | nil => rfl
  | append_singleton calls call ih => simp [languages_append_singleton, ih]

/-- Further calls leave the languages alone. -/
theorem languages_prefix (rest : List Call) : languages calls <+: languages (calls ++ rest) := by
  induction rest using List.reverseRecOn with
  | nil => simp
  | append_singleton rest call ih =>
    rw [← List.append_assoc, languages_append_singleton]
    exact ih.trans (List.prefix_append _ _)

theorem construct_append_singleton : construct alphabet (calls ++ [call]) =
    (construct alphabet calls).bind fun c => c.call call := by
  rw [construct, List.foldlM_append]
  show Except.bind _ _ = Except.bind _ _
  refine congrArg _ (funext fun c => ?_)
  rw [List.foldlM_cons]
  cases c.call call <;> rfl

/-- A construction that some calls made: the fragments that they have not used have their words. -/
structure Construction.MadeBy (c : Construction) (alphabet : Nat) (calls : List Call)
    (regions : Nat → Set Nat) : Prop where
  alphabet_eq : c.nfa.alphabet = alphabet
  length_eq : c.fragments.length = calls.length
  owns : c.nfa.Owns {i | i < calls.length ∧ i ∉ used calls} c.fragment ((languages calls).getD · 0)
    regions

/-- What is not used after one more call: what was not used before, and the new fragment. -/
theorem unused_append_singleton (h : Proper alphabet (calls ++ [call])) :
    {i | i < (calls ++ [call]).length ∧ i ∉ used (calls ++ [call])} =
      {i | i ∈ {i | i < calls.length ∧ i ∉ used calls} ∧ i ∉ call.operands} ∪
        {calls.length} := by
  ext i
  have hused : i ∈ used calls → i < calls.length := h.of_append.lt_length_of_mem_used
  have hoperand : i ∈ call.operands → i < calls.length := h.earlier calls.length call (by simp) i
  simp only [used_append_singleton, List.length_append, List.length_singleton,
    List.mem_append, Set.mem_ofPred_eq, Set.mem_union, Set.mem_singleton_iff, not_or]
  grind

/-- One more call of a program meets no fault, and its fragment has its words. -/
theorem Construction.MadeBy.exists_call {c : Construction} (hc : c.MadeBy alphabet calls regions)
    (h : Proper alphabet (calls ++ [call])) :
    ∃ c' regions', c.call call = .ok c' ∧ c'.MadeBy alphabet (calls ++ [call]) regions' := by
  have honce := h.once
  rw [used_append_singleton, List.nodup_append] at honce
  have hoperands : ∀ i ∈ call.operands, i < calls.length ∧ i ∉ used calls := by
    intro i hi
    refine ⟨h.earlier calls.length call (by simp) i hi, ?_⟩
    intro hused
    exact honce.2.2 i hused i hi rfl
  have hfits : call.Fits c.nfa.alphabet := hc.alphabet_eq ▸ h.fits call (by simp)
  obtain ⟨made, hbuild, hmakes⟩ := hc.owns.exists_build hoperands honce.2.1 hfits
  have hmade : c.call call = .ok ⟨made.1, c.fragments ++ [made.2]⟩ := by
    rw [Construction.call, hbuild]
    rfl
  -- the numbers of what was made before still stand for the same
  have hold : ∀ i ∈ {i | i < calls.length ∧ i ∉ used calls},
      (c.fragments ++ [made.2]).getD i ⟨0, 0⟩ = c.fragment i ∧
        (languages (calls ++ [call])).getD i 0 = (languages calls).getD i 0 := by
    rintro i ⟨hi, -⟩
    have hfragment : i < c.fragments.length := hc.length_eq ▸ hi
    have hlanguage : i < (languages calls).length := length_languages ▸ hi
    rw [languages_append_singleton, Construction.fragment]
    simp only [List.getD_eq_getElem?_getD, List.getElem?_append_left hfragment,
      List.getElem?_append_left hlanguage, and_self]
  have hnew : (c.fragments ++ [made.2]).getD calls.length ⟨0, 0⟩ = made.2 ∧
      (languages (calls ++ [call])).getD calls.length 0 =
        call.meaning ((languages calls).getD · 0) := by
    rw [languages_append_singleton]
    simp [← hc.length_eq]
  obtain ⟨regions', howns⟩ := hc.owns.of_makes hoperands hmakes (fun hk => Nat.lt_irrefl _ hk.1)
    (fun i => (c.fragments ++ [made.2]).getD i ⟨0, 0⟩)
    (fun i => (languages (calls ++ [call])).getD i 0) hold hnew
  rw [← unused_append_singleton h] at howns
  have halphabet : made.1.alphabet = alphabet := hmakes.changes.alphabet_eq.trans hc.alphabet_eq
  exact ⟨_, regions', hmade, halphabet, by simp [hc.length_eq], howns⟩

/-- A program meets no fault, and the fragments that it has not used have their words. -/
theorem exists_construct (h : Proper alphabet calls) :
    ∃ c regions, construct alphabet calls = .ok c ∧ c.MadeBy alphabet calls regions := by
  -- calls are added at the end, since they refer to earlier ones
  induction calls using List.reverseRecOn with
  | nil =>
    have hnone : ∀ i, ¬ (i < ([] : List Call).length ∧ i ∉ used []) :=
      fun i hi => Nat.not_lt_zero i hi.1
    refine ⟨_, fun _ => ∅, rfl, rfl, rfl, ⟨?_, ?_⟩⟩
    · intro i hi
      exact absurd hi (hnone i)
    · intro i hi
      exact absurd hi (hnone i)
  | append_singleton calls call ih =>
    obtain ⟨c, regions, hconstruct, hc⟩ := ih h.of_append
    obtain ⟨c', regions', hcall, hc'⟩ := hc.exists_call h
    refine ⟨c', regions', ?_, hc'⟩
    rw [construct_append_singleton, hconstruct]
    exact hcall

/-! ### Words at any time -/

/-- What a call stands for depends on the languages of its operands. -/
theorem Call.meaning_congr {language' : Nat → Language Nat}
    (h : ∀ i ∈ call.operands, language i = language' i) :
    call.meaning language = call.meaning language' := by
  cases call with
  | sequence operands => exact congrArg List.prod (List.map_congr_left h)
  | alternation operands => exact congrArg List.sum (List.map_congr_left h)
  | star operand => exact congrArg (·∗) (h operand (List.mem_singleton_self _))
  | plus operand => exact congrArg (fun L => L * L∗) (h operand (List.mem_singleton_self _))
  | optional operand => exact congrArg (1 + ·) (h operand (List.mem_singleton_self _))
  | _ => rfl

theorem getD_languages_take {k i : Nat} (hk : k ≤ calls.length) (hi : i < k) :
    (languages (calls.take k)).getD i 0 = (languages calls).getD i 0 := by
  have hbegin : languages (calls.take k) <+: languages (calls.take k ++ calls.drop k) :=
    languages_prefix _
  rw [List.take_append_drop] at hbegin
  obtain ⟨rest, hrest⟩ := hbegin
  have hlt : i < (languages (calls.take k)).length := by
    rwa [length_languages, List.length_take_of_le hk]
  simp only [← hrest, List.getD_eq_getElem?_getD, List.getElem?_append_left hlt]

/-- The languages are those of the operations on the languages of the operands. -/
theorem Proper.getD_languages (h : Proper alphabet calls) {i : Nat} (hi : calls[i]? = some call) :
    (languages calls).getD i 0 = call.meaning ((languages calls).getD · 0) := by
  obtain ⟨hlt, hcall⟩ := List.getElem?_eq_some_iff.1 hi
  have htake : calls.take (i + 1) = calls.take i ++ [call] := by
    rw [List.take_add_one, hi]
    rfl
  have hlength : (languages (calls.take i)).length = i := by
    rw [length_languages, List.length_take_of_le (Nat.le_of_lt hlt)]
  rw [← getD_languages_take hlt (Nat.lt_succ_self i), htake, languages_append_singleton,
    List.getD_eq_getElem?_getD, List.getElem?_append_right (Nat.le_of_eq hlength), hlength,
    Nat.sub_self]
  refine Call.meaning_congr fun j hj => ?_
  exact getD_languages_take (Nat.le_of_lt hlt) (h.earlier i call hi j hj)

/-- When a fragment is made, it has not been used. -/
theorem Proper.not_mem_used_take (h : Proper alphabet calls) (i : Nat) :
    i ∉ used (calls.take (i + 1)) := by
  intro hi
  obtain ⟨call, hcall, hi⟩ := List.mem_flatMap.1 hi
  obtain ⟨k, hk⟩ := List.mem_iff_getElem?.1 hcall
  rw [List.getElem?_take] at hk
  split at hk
  · have := h.earlier k call hk i hi
    omega
  · cases hk

/-- In every program of combinator calls in which no fragment is an operand twice, each fragment has
the words of the operation that its call is named for on the languages of the operands: when it is
made, and behind any further calls that do not use it. -/
theorem construct_words (h : Proper alphabet calls) : ∃ language : Nat → Language Nat,
    (∀ i call, calls[i]? = some call → language i = call.meaning language) ∧
    (∀ i, i ∉ used (calls.take (i + 1))) ∧
    ∀ k ≤ calls.length, ∃ c, construct alphabet (calls.take k) = .ok c ∧ c.fragments.length = k ∧
      ∀ i < k, i ∉ used (calls.take k) → c.nfa.words (c.fragment i) = language i := by
  refine ⟨fun i => (languages calls).getD i 0, fun i call hi => h.getD_languages hi,
    h.not_mem_used_take, fun k hk => ?_⟩
  have hbegin : Proper alphabet (calls.take k) := by
    rw [← List.take_append_drop k calls] at h
    exact h.of_append
  obtain ⟨c, regions, hconstruct, hc⟩ := exists_construct hbegin
  have hlength := hc.length_eq
  have howns := hc.owns
  rw [List.length_take_of_le hk] at hlength howns
  refine ⟨c, hconstruct, hlength, ?_⟩
  intro i hi hunused
  show c.nfa.words (c.fragment i) = (languages calls).getD i 0
  rw [← getD_languages_take hk hi]
  exact (howns.holds i ⟨hi, hunused⟩).words_eq

/-- The symbol 1 any number of times. -/
def ones : Dfa := ⟨2, #[⟨true, [none, some 0]⟩], 0⟩

/-- Pairs `0 1` any number of times, or a copy of `ones`; and any one symbol beside it, or none. -/
def pairsOrOnes : List Call :=
  [.symbol 0, .symbol 1, .sequence [0, 1], .embed ones, .star 2, .symbols ⟨0, 2⟩,
    .alternation [4, 3], .optional 5]

theorem construct_words_pairsOrOnes : Proper 2 pairsOrOnes ∧
    ∃ c, construct 2 pairsOrOnes = .ok c ∧
      c.nfa.words (c.fragment 6) = ({[0]} * {[1]})∗ + ones.words ∧
      c.nfa.words (c.fragment 7) = 1 + rangeWords ⟨0, 2⟩ := by
  have hproper : Proper 2 pairsOrOnes := by
    refine ⟨?_, by decide, ?_⟩
    · intro k call hk
      obtain ⟨hlt, rfl⟩ := List.getElem?_eq_some_iff.1 hk
      have hall : ∀ k, (hlt : k < 8) → ∀ i ∈ (pairsOrOnes.get ⟨k, hlt⟩).operands, i < k := by
        decide
      exact hall k hlt
    · simp only [pairsOrOnes, List.forall_mem_cons, Call.Fits]
      have hones : ones.WellFormed := Dfa.isWellFormed_iff.1 (by decide +kernel)
      exact ⟨by decide, by decide, trivial, ⟨hones, rfl⟩, trivial, by decide, trivial, trivial,
        by simp⟩
  obtain ⟨language, hlanguage, -, hwords⟩ := construct_words hproper
  obtain ⟨c, hc, -, hc'⟩ := hwords 8 (Nat.le_refl 8)
  refine ⟨hproper, c, hc, ?_, ?_⟩
  · rw [hc' 6 (by decide) (by decide), hlanguage 6 _ rfl]
    simp [Call.meaning, hlanguage 4 _ rfl, hlanguage 3 _ rfl, hlanguage 2 _ rfl,
      hlanguage 1 _ rfl, hlanguage 0 _ rfl]
  · rw [hc' 7 (by decide) (by decide), hlanguage 7 _ rfl]
    simp [Call.meaning, hlanguage 5 _ rfl]

end CallChain.Nfa
