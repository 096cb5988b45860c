import CallChain.Proofs.Compile.Memo

/-!
# The letters of a body

The words of a body are made of anchors, of the overloads of its literals and of what the words of
its references are made of; closing a scope adds no letter. So an action in a word of the root has a
name that some literal carries, in the root itself or in a body that is reached from it
(`Registry.Uses`).

* `language_le_wordsOver`: the letters of a body.
* `Memo.uses_of_mem`: the actions in the words of the root.
-/

namespace CallChain

open scoped Computability

/-! ### Words over some letters -/

/-- The words that are made of some letters only. -/
def wordsOver (letters : Set SymbolKind) : Language SymbolKind := {w | ∀ k ∈ w, k ∈ letters}

section WordsOver

variable {letters : Set SymbolKind} {L L' : Language SymbolKind} {k : SymbolKind}

theorem one_le_wordsOver : 1 ≤ wordsOver letters := by
  rintro w rfl k hk
  cases hk

theorem singleton_mem_wordsOver (h : k ∈ letters) : [k] ∈ wordsOver letters := by
  intro k' hk'
  rw [List.mem_singleton.1 hk']
  exact h

/-- Words over the letters are closed under concatenation. -/
theorem mul_le_wordsOver (h : L ≤ wordsOver letters) (h' : L' ≤ wordsOver letters) :
    L * L' ≤ wordsOver letters := by
  rintro w ⟨u, hu, v, hv, rfl⟩ k hk
  rcases List.mem_append.1 hk with hk | hk
  · exact h hu k hk
  · exact h' hv k hk

theorem prod_le_wordsOver {Ls : List (Language SymbolKind)}
    (h : ∀ L ∈ Ls, L ≤ wordsOver letters) : Ls.prod ≤ wordsOver letters := by
  induction Ls with
  | nil => exact one_le_wordsOver
  | cons L Ls ih =>
    rw [List.forall_mem_cons] at h
    rw [List.prod_cons]
    exact mul_le_wordsOver h.1 (ih h.2)

theorem kstar_le_wordsOver (h : L ≤ wordsOver letters) : L∗ ≤ wordsOver letters :=
  kstar_le_of_mul_le_left one_le_wordsOver (mul_le_wordsOver le_rfl h)

theorem repeated_le_wordsOver (h : L ≤ wordsOver letters) (q : Quantifier) :
    q.repeated L ≤ wordsOver letters := by
  cases q with
  | star => exact kstar_le_wordsOver h
  | plus => exact mul_le_wordsOver h (kstar_le_wordsOver h)
  | optional => exact add_le one_le_wordsOver h

/-- Closing a scope takes letters away and adds none. -/
theorem Scope.close_le_wordsOver (h : L ≤ wordsOver letters) :
    Scope.close L ≤ wordsOver letters := by
  rintro w (rfl | ⟨u, hu, rfl⟩) k hk
  · cases hk
  · obtain ⟨v, -, hmem⟩ := hu.mem_prefixes
    have hk' : k ∈ u ++ v := List.mem_append_left v (List.mem_of_mem_filter hk)
    rcases hmem with hmem | hmem
    · exact h hmem k hk'
    · exact h hmem k (List.mem_cons_of_mem _ hk')

end WordsOver

/-! ### Bodies -/

namespace Regex

section Letters

variable {t : ActionTable} {env : String → Language SymbolKind} {letters : Set SymbolKind}

mutual

/-- The words of a body are made of anchors, of the overloads of its literals, and of the letters
of its references. -/
theorem language_le_wordsOver (hanchors : ∀ mark, .anchor mark ∈ letters) : ∀ expr : Regex,
    (∀ name ∈ expr.literals, ∀ id ∈ t.members name.text, .action id ∈ letters) →
      (∀ name ∈ expr.refs, env name.text ≤ wordsOver letters) →
        expr.language t env ≤ wordsOver letters
  | literal name, hliterals, _ => by
    rintro w ⟨id, hid, rfl⟩
    exact singleton_mem_wordsOver (hliterals name (List.mem_singleton_self name) id hid)
  | ref name, _, hrefs => hrefs name (List.mem_singleton_self name)
  | anchor mark, _, _ => by
    rintro w rfl
    exact singleton_mem_wordsOver (hanchors mark)
  | concat operands, hliterals, hrefs => by
    rw [language]
    exact prod_le_wordsOver (forall_languagesOf_le_wordsOver hanchors operands hliterals hrefs)
  | alt operands, hliterals, hrefs => by
    rw [language]
    exact Nfa.sum_le_of_forall (forall_languagesOf_le_wordsOver hanchors operands hliterals hrefs)
  | quantified operand q, hliterals, hrefs =>
    repeated_le_wordsOver (language_le_wordsOver hanchors operand hliterals hrefs) q
  | nonEmpty operand, hliterals, hrefs =>
    fun _ hw => language_le_wordsOver hanchors operand hliterals hrefs hw.1

theorem forall_languagesOf_le_wordsOver (hanchors : ∀ mark, .anchor mark ∈ letters) :
    ∀ operands : List Regex,
    (∀ name ∈ literalsOf operands, ∀ id ∈ t.members name.text, .action id ∈ letters) →
      (∀ name ∈ refsOf operands, env name.text ≤ wordsOver letters) →
        ∀ L ∈ languagesOf t env operands, L ≤ wordsOver letters
  | [], _, _ => by
    intro L hL
    cases hL
  | operand :: operands, hliterals, hrefs => by
    rw [literalsOf, List.forall_mem_append] at hliterals
    rw [refsOf, List.forall_mem_append] at hrefs
    rw [languagesOf, List.forall_mem_cons]
    exact ⟨language_le_wordsOver hanchors operand hliterals.1 hrefs.1,
      forall_languagesOf_le_wordsOver hanchors operands hliterals.2 hrefs.2⟩

end

end Letters

end Regex

/-! ### Registries -/

namespace Registry

variable (r : Registry)

/-- The names that literals carry, in the root or in a body that is reached from it. -/
inductive Uses : String → Prop where
  | root {name : Name} (hname : name ∈ r.root.body.literals) : Uses name.text
  | reached {via : String} {s : SubExpression} {name : Name} (hvia : r.Reaches via)
      (hs : r.find? via = some s) (hname : name ∈ s.body.literals) : Uses name.text

/-- The anchors, and the actions with names that are used. -/
def usedLetters (t : ActionTable) : Set SymbolKind :=
  {k | ∀ id action, k = .action id → t.get? id = some action → r.Uses action.name}

end Registry

section Memo

variable {r : Registry} {t : ActionTable} {compiled : List (String × Dfa)} {name : String}

/-- A body whose literals are used, over references that are made of used letters. -/
theorem SubExpression.language_le_wordsOver {s : SubExpression}
    {env : String → Language SymbolKind} (hliterals : ∀ n ∈ s.body.literals, r.Uses n.text)
    (hrefs : ∀ n ∈ s.body.refs, env n.text ≤ wordsOver (r.usedLetters t)) :
    s.language t env ≤ wordsOver (r.usedLetters t) := by
  have hbody : s.body.language t env ≤ wordsOver (r.usedLetters t) := by
    refine Regex.language_le_wordsOver ?_ s.body ?_ hrefs
    · intro mark id action heq
      cases heq
    · intro n hn id hid id' action heq hget
      cases heq
      obtain ⟨action', hget', hname⟩ := ActionTable.mem_members.1 hid
      rw [hget] at hget'
      cases hget'
      rw [hname]
      exact hliterals n hn
  unfold SubExpression.language
  split
  · exact Scope.close_le_wordsOver hbody
  · exact hbody

/-- What is compiled for a name that is reached is made of used letters. -/
theorem Memo.environment_le_wordsOver (h : Memo r t compiled) (hname : name ∈ compiled.map (·.1))
    (hreached : r.Reaches name) : environment t compiled name ≤ wordsOver (r.usedLetters t) := by
  -- the references of a body have been compiled before it
  induction h generalizing name with
  | nil => cases hname
  | @cons other d s rest hs hfresh hrefs hd hrest ih =>
    rcases List.mem_cons.1 hname with rfl | hmem
    · rw [environment_cons_self, hd.decoded_eq]
      refine SubExpression.language_le_wordsOver ?_ ?_
      · exact fun n hn => .reached hreached hs hn
      · exact fun n hn => ih (hrefs n hn) (.step hreached hs hn)
    · have hne : name ≠ other := by
        rintro rfl
        exact hfresh hmem
      rw [environment_cons hne]
      exact ih hmem hreached

/-- The actions in the words of the root have names that are used. -/
theorem Memo.uses_of_mem (h : Memo r t compiled)
    (hrefs : ∀ n ∈ r.root.body.refs, n.text ∈ compiled.map (·.1)) {w : List SymbolKind}
    {id : ActionId} {action : Action} (hw : w ∈ r.root.language t (environment t compiled))
    (hid : .action id ∈ w) (hget : t.get? id = some action) : r.Uses action.name := by
  have hroot : r.root.language t (environment t compiled) ≤ wordsOver (r.usedLetters t) := by
    apply SubExpression.language_le_wordsOver
    · exact fun n hn => .root hn
    · exact fun n hn => h.environment_le_wordsOver (hrefs n hn) (.root hn)
  exact hroot hw _ hid id action rfl hget

end Memo

end CallChain
