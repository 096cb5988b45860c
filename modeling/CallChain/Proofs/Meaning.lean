import CallChain.Alphabet
import CallChain.Registry
import CallChain.Proofs.ActionTable
import Mathlib.Computability.Language

/-!
# What a registry means

The chains that a grammar describes, without automata. A body stands for a language over actions
and anchors; references stand for the languages that an environment gives to their names
(`Registry.Solves` says which environments are right). A body with a scope of its own is closed, so
that only actions are left, and the closed body of the root says which actions may be taken after
which (`Position`).

* `Regex.language`: the words of a body.
* `Scope.close`: the words of a scope, without its anchors.
* `Position.after`: where a sequence of actions leads.
-/

namespace CallChain

open scoped Computability

/-! ### Bodies -/

/-- The words of one overload of a name. -/
def ActionTable.overloads (t : ActionTable) (name : String) : Language SymbolKind :=
  {w | ∃ id ∈ t.members name, w = [.action id]}

/-- What a quantifier does to a language. -/
def Quantifier.repeated (L : Language SymbolKind) : Quantifier → Language SymbolKind
  | star => L∗
  | plus => L * L∗
  | optional => 1 + L

namespace Regex

variable (t : ActionTable) (env : String → Language SymbolKind)

mutual

/-- The words of a body; `env` gives the words of what it refers to. -/
def language : Regex → Language SymbolKind
  | literal name => t.overloads name.text
  | ref name => env name.text
  | anchor mark => {[.anchor mark]}
  | concat operands => (languagesOf operands).prod
  | alt operands => (languagesOf operands).sum
  | quantified operand q => q.repeated (language operand)
  | nonEmpty operand => {w | w ∈ language operand ∧ w ≠ []}

def languagesOf : List Regex → List (Language SymbolKind)
  | [] => []
  | operand :: operands => language operand :: languagesOf operands

end

end Regex

/-! ### Scopes -/

namespace Scope

/-- The words of a scope behind its start anchor, which may be spelled out or left away. -/
def inside (L : Language SymbolKind) : Language SymbolKind :=
  {w | .anchor .start ∉ w ∧ (w ∈ L ∨ .anchor .start :: w ∈ L)}

/-- What words begin with. -/
def prefixes (L : Language SymbolKind) : Language SymbolKind := {u | ∃ v, u ++ v ∈ L}

/-- A way through a scope: it takes actions and passes inner anchors, though none at once, and goes
no further from where the end anchor is possible. -/
structure Passes (L : Language SymbolKind) (u : List SymbolKind) : Prop where
  mem_prefixes : u ∈ prefixes (inside L)
  kinds : ∀ k ∈ u, k = .anchor .inner ∨ ∃ id, k = .action id
  head_ne : u.head? ≠ some (.anchor .inner)
  not_ended : ∀ p, p <+: u → p ≠ u → p ++ [.anchor .stop] ∉ prefixes (inside L)

/-- What is left of the ways through a scope without the inner anchors. -/
def passed (L : Language SymbolKind) : Language SymbolKind :=
  {w | ∃ u, Passes L u ∧ u.filter (· ≠ .anchor .inner) = w}

/-- The words of a scope without its anchors. -/
def close (L : Language SymbolKind) : Language SymbolKind := {w | w = [] ∨ w ∈ passed L}

end Scope

/-! ### Registries -/

/-- The words of a subexpression; those of a scope of its own are closed. -/
def SubExpression.language (t : ActionTable) (env : String → Language SymbolKind)
    (s : SubExpression) : Language SymbolKind :=
  if s.ownScope then Scope.close (s.body.language t env) else s.body.language t env

namespace Registry

variable (r : Registry)

/-- The names that the root refers to, by itself or through other bodies. -/
inductive Reaches : String → Prop where
  | root {name : Name} (hname : name ∈ r.root.body.refs) : Reaches name.text
  | step {via : String} {s : SubExpression} {name : Name} (hvia : Reaches via)
      (hs : r.find? via = some s) (hname : name ∈ s.body.refs) : Reaches name.text

/-- An environment that gives each name that is reached the words of the body with this name. -/
def Solves (t : ActionTable) (env : String → Language SymbolKind) : Prop :=
  ∀ name s, r.Reaches name → r.find? name = some s → env name = s.language t env

end Registry

/-! ### Chains -/

section Chains

variable (t : ActionTable) (L : Language SymbolKind)

/-- How far a chain has come. Actions that are offered everywhere are not counted where the language
does not mention them. -/
inductive Position where
  | after (taken : List ActionId)
  | ended

namespace Position

/-- The actions that may be taken next. -/
def offers : Position → Set ActionId
  | after taken =>
    {id | (taken ++ [id]).map .action ∈ L ∨ t.holds (·.isGlobal) id = true}
  | ended => ∅

open Classical in
/-- Where an action leads that is offered behind some others. A terminator ends the chain, and so
does an action behind which nothing is offered. -/
noncomputable def successor (taken : List ActionId) (id : ActionId) : Position :=
  if t.holds (·.isTerminator) id = true then ended
  else
    let next := after (if (taken ++ [id]).map .action ∈ L then taken ++ [id] else taken)
    if (next.offers t L).Nonempty then next else ended

open Classical in
/-- Where an action leads; nowhere if it is not offered. -/
noncomputable def take : Position → ActionId → Option Position
  | ended, _ => none
  | after taken, id =>
    if id ∈ (after taken).offers t L then some (successor t L taken id) else none

/-- Where a sequence of actions leads from the beginning of a chain. -/
noncomputable def afterAll (chain : List ActionId) : Option Position :=
  chain.foldlM (take t L) (after [])

end Position

end Chains

end CallChain
