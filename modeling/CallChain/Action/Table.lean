import CallChain.Access
import CallChain.Sorting

/-!
# The table of declared actions

A table holds the actions in declaration order together with their canonical order. No two of its
actions agree in everything the canonical order compares; a list in which two do has no table, and
`DuplicateAction` names the clash: the first pair of equal neighbours in canonical order.

Actions that share a display name form an overload group. Groups are listed by the first
declaration of their name, the members of a group by declaration.
-/

namespace CallChain

/-- Two declared actions that the canonical order cannot tell apart. -/
structure DuplicateAction where
  /-- Identity key of both. -/
  key : String
  first : ActionId
  second : ActionId
deriving DecidableEq, Repr

def DuplicateAction.message (d : DuplicateAction) : String :=
  "duplicate action `" ++ d.key ++ "` (" ++ toString d.first ++ " and " ++ toString d.second ++ ")"

/-! ### The canonical order of a declaration list -/

/-- The declared actions with their handles, in declaration order. -/
def declared (actions : List Action) : List (ActionId × Action) :=
  actions.zipIdx.map fun (action, index) => (⟨index⟩, action)

/-- The canonical order; actions that it does not tell apart stay in declaration order. -/
def inCanonicalOrder (actions : List Action) : List (ActionId × Action) :=
  sortBy (fun p q => ((p.2.compareKey q.2).then (compare p.1.index q.1.index)).isLE)
    (declared actions)

/-- The first two neighbours that the canonical order does not tell apart. -/
def firstClash : List (ActionId × Action) → Option DuplicateAction
  | p :: q :: rest =>
    if p.2.compareKey q.2 = .eq then some ⟨p.2.identityKey, p.1, q.1⟩ else firstClash (q :: rest)
  | _ => none

/-! ### Tables -/

/-- A list of declared actions without duplicates, and its canonical order. -/
structure ActionTable where
  /-- Declaration order. -/
  actions : List Action
  /-- Canonical order. -/
  order : List ActionId
  order_eq : order = (inCanonicalOrder actions).map (·.1)
  no_clash : firstClash (inCanonicalOrder actions) = none

namespace ActionTable

/-- The table of a declaration list, or the clash that forbids it. -/
def ofActions? (actions : List Action) : Except DuplicateAction ActionTable :=
  match h : firstClash (inCanonicalOrder actions) with
  | some clash => .error clash
  | none => .ok ⟨actions, (inCanonicalOrder actions).map (·.1), rfl, h⟩

variable (t : ActionTable)

def size : Nat := t.actions.length

def isEmpty : Bool := t.actions.isEmpty

def get? (id : ActionId) : Option Action := t.actions[id.index]?

/-- Handles in declaration order. -/
def ids : List ActionId := (List.range t.size).map ActionId.mk

/-- Does a flag hold of the action behind a handle? A handle from elsewhere has no flags. -/
def holds (flag : Action → Bool) (id : ActionId) : Bool := (t.get? id).any flag

/-- Global actions in canonical order. -/
def globals : List ActionId := t.order.filter (t.holds (·.isGlobal))

/-- Global actions that end the chain, in canonical order. -/
def globalTerminators : List ActionId := t.globals.filter (t.holds (·.isTerminator))

/-- Compares two actions of the table by their places in the canonical order. -/
def compare (a b : ActionId) : Ordering :=
  Ord.compare (t.order.idxOf a) (t.order.idxOf b)

/-- The place of an action in the canonical order. -/
def rank (id : ActionId) : Except Fault Nat :=
  match t.order.idxOf? id with
  | some place => .ok place
  | none => .error (.outOfBounds id.index t.size)

/-- Compares two actions by their places in the canonical order, which have to be there. -/
def compared (a b : ActionId) : Except Fault Ordering := do
  return Ord.compare (← t.rank a) (← t.rank b)

/-! ### Overload groups -/

/-- The distinct display names, by first declaration. -/
def names : List String := (t.actions.map (·.name)).eraseDups

def containsName (name : String) : Bool := t.actions.any (·.name == name)

/-- The overloads of a display name in declaration order; none for a name nothing declares. -/
def byName? (name : String) : Option (List ActionId) :=
  if t.containsName name then
    some (((declared t.actions).filter (·.2.name == name)).map (·.1))
  else
    none

def isOverloaded (name : String) : Bool := 1 < ((t.byName? name).getD []).length

/-- The display name, with the parameter types where the name is overloaded. -/
def labelOf (action : Action) : String :=
  if t.isOverloaded action.name then
    action.name ++ "(" ++ ", ".intercalate action.params ++ ")"
  else
    action.name

end ActionTable
end CallChain
