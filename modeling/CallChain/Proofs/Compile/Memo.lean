import CallChain.Proofs.Compile.Scan
import CallChain.Proofs.Compile.Scope

/-!
# The memo of a compilation

Each automaton that a compilation remembers represents the body with its name, the references of
which stand for automata that were there before (`Memo`). So a memo is an environment, and a longer
memo is the same environment on the names of a shorter one.

* `Memo.environment_eq`: what a longer memo keeps.
* `Memo.solves`, `Memo.environment_unique`: the environment is right, and no other one is.
-/

namespace CallChain

section Memo

variable (r : Registry) (t : ActionTable)

/-- The words that the automata of a memo give to their names. -/
def environment (compiled : List (String × Dfa)) (name : String) : Language SymbolKind :=
  (compiled.lookup name).elim 0 (Alphabet.ofTable t).decoded

/-- Each automaton represents the body with its name, the references of which are compiled
already. -/
inductive Memo : List (String × Dfa) → Prop where
  | nil : Memo []
  | cons {name : String} {d : Dfa} {s : SubExpression} {rest : List (String × Dfa)}
      (hs : r.find? name = some s) (hfresh : name ∉ rest.map (·.1))
      (hrefs : ∀ n ∈ s.body.refs, n.text ∈ rest.map (·.1))
      (hd : (Alphabet.ofTable t).Represents d (s.language t (environment t rest)))
      (hrest : Memo rest) : Memo ((name, d) :: rest)

variable {r t} {name : String} {compiled rest : List (String × Dfa)} {d : Dfa}

theorem environment_cons_self :
    environment t ((name, d) :: rest) name = (Alphabet.ofTable t).decoded d := by
  rw [environment, List.lookup_cons_self, Option.elim_some]

theorem environment_cons {other : String} (h : other ≠ name) :
    environment t ((name, d) :: rest) other = environment t rest other := by
  rw [environment, environment, List.lookup_cons, beq_eq_false_iff_ne.2 h]

theorem Memo.nodup (h : Memo r t compiled) : (compiled.map (·.1)).Nodup := by
  induction h with
  | nil => exact List.nodup_nil
  | cons _ hfresh _ _ _ ih => exact List.nodup_cons.2 ⟨hfresh, ih⟩

/-- A longer memo says the same about the names of a shorter one. -/
theorem Memo.environment_eq (h : Memo r t compiled) (hrest : rest <:+ compiled)
    (hname : name ∈ rest.map (·.1)) : environment t compiled name = environment t rest name := by
  induction h with
  | nil => rw [List.suffix_nil.1 hrest]
  | @cons other d s compiled _ hfresh _ _ _ ih =>
    rcases List.suffix_cons_iff.1 hrest with rfl | hsuffix
    · rfl
    · have hne : name ≠ other := by
        rintro rfl
        exact hfresh ((hsuffix.map _).mem hname)
      rw [environment_cons hne]
      exact ih hsuffix

/-- An automaton of the memo represents what the environment says. -/
theorem Memo.represents (h : Memo r t compiled) (hd : compiled.lookup name = some d) :
    (Alphabet.ofTable t).Represents d (environment t compiled name) := by
  rw [environment, hd, Option.elim_some]
  induction h with
  | nil => cases hd
  | cons _ _ _ he _ ih =>
    rw [List.lookup_cons] at hd
    split at hd
    · cases hd
      exact Alphabet.represents_decoded he.toWellFormed he.alphabet_eq
    · exact ih hd

theorem Memo.refs_mem (h : Memo r t compiled) (hname : name ∈ compiled.map (·.1))
    {s : SubExpression} (hs : r.find? name = some s) :
    ∀ n ∈ s.body.refs, n.text ∈ compiled.map (·.1) := by
  induction h with
  | nil => cases hname
  | @cons other d s' rest hs' _ hrefs _ _ ih =>
    intro n hn
    refine List.mem_cons_of_mem _ ?_
    rcases List.mem_cons.1 hname with rfl | hname
    · rw [hs] at hs'
      cases hs'
      exact hrefs n hn
    · exact ih hname n hn

/-- The environment of a memo gives each of its names the words of the body with this name. -/
theorem Memo.environment_eq_language (h : Memo r t compiled) (hname : name ∈ compiled.map (·.1))
    {s : SubExpression} (hs : r.find? name = some s) :
    environment t compiled name = s.language t (environment t compiled) := by
  induction h with
  | nil => cases hname
  | @cons other d s' rest hs' hfresh hrefs hd hrest ih =>
    have hlonger : Memo r t ((other, d) :: rest) := .cons hs' hfresh hrefs hd hrest
    have hsame {n : String} (hn : n ∈ rest.map (·.1)) :
        environment t ((other, d) :: rest) n = environment t rest n :=
      hlonger.environment_eq (List.suffix_cons _ _) hn
    rcases List.mem_cons.1 hname with rfl | hname
    · rw [hs] at hs'
      cases hs'
      rw [environment_cons_self, hd.decoded_eq]
      exact SubExpression.language_congr fun n hn => (hsame (hrefs n hn)).symm
    · rw [hsame hname, ih hname]
      exact SubExpression.language_congr fun n hn => (hsame (hrest.refs_mem hname hs n hn)).symm

/-- A memo that has the references of the root has all names that are reached. -/
theorem Memo.mem_of_reaches (h : Memo r t compiled)
    (hroot : ∀ n ∈ r.root.body.refs, n.text ∈ compiled.map (·.1)) (hname : r.Reaches name) :
    name ∈ compiled.map (·.1) := by
  induction hname with
  | root hname => exact hroot _ hname
  | step _ hs hname ih => exact h.refs_mem ih hs _ hname

theorem Memo.solves (h : Memo r t compiled)
    (hroot : ∀ n ∈ r.root.body.refs, n.text ∈ compiled.map (·.1)) :
    r.Solves t (environment t compiled) :=
  fun _ _ hname hs => h.environment_eq_language (h.mem_of_reaches hroot hname) hs

/-- No other environment is right. -/
theorem Memo.environment_unique (h : Memo r t compiled) {env : String → Language SymbolKind}
    (hsolves : r.Solves t env) (hname : name ∈ compiled.map (·.1)) (hreached : r.Reaches name) :
    env name = environment t compiled name := by
  induction h generalizing name with
  | nil => cases hname
  | @cons other d s rest hs hfresh hrefs hd hrest ih =>
    rcases List.mem_cons.1 hname with rfl | hmem
    · rw [environment_cons_self, hd.decoded_eq, hsolves _ s hreached hs]
      exact SubExpression.language_congr fun n hn => ih (hrefs n hn) (.step hreached hs hn)
    · have hne : name ≠ other := by
        rintro rfl
        exact hfresh hmem
      rw [environment_cons hne]
      exact ih hmem hreached

end Memo

end CallChain
