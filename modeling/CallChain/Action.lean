/-!
# Actions

An action is one step of a call chain: one generated method. Several actions may share a display
name (they are then overloads of it), so an action is identified by its place in the table that
declares it (`ActionId`) and never by the values of its fields.

The canonical order compares the display name, the declaring operation, the parameter types
(element by element, then by length) and the return type, in this sequence. Texts are compared by
code points.
-/

namespace CallChain

/-- Handle to an action: its position in the declaration list of a table. -/
structure ActionId where
  index : Nat
deriving DecidableEq, Repr

instance : ToString ActionId := ⟨fun id => "A" ++ toString id.index⟩

/-- One step of a call chain. -/
structure Action where
  /-- Display name, the one that grammars mention. -/
  name : String
  /-- The operation that declares the method. -/
  operation : String
  params : List String
  returns : String
  /-- Offered in every state. -/
  isGlobal : Bool
  /-- Ends the chain. -/
  isTerminator : Bool
  /-- May be offered as a variadic method where it can be repeated. -/
  allowsVarargs : Bool
deriving DecidableEq, Repr

namespace Action

/-- An action without parameters and flags, declared by the operation of its own name. -/
def ofName (name : String) : Action where
  name
  operation := name
  params := []
  returns := "void"
  isGlobal := false
  isTerminator := false
  allowsVarargs := false

/-- Name, parameter types and return type on one line, such as `add(int)->void`. -/
def identityKey (a : Action) : String :=
  a.name ++ "(" ++ ",".intercalate a.params ++ ")->" ++ a.returns

/-- The canonical comparison; flags take no part in it. -/
def compareKey (a b : Action) : Ordering :=
  (compare a.name b.name).then <| (compare a.operation b.operation).then <|
    (compare a.params b.params).then (compare a.returns b.returns)

/-- Two actions that agree in everything the canonical order looks at are not told apart by it. -/
theorem compareKey_eq_iff {a b : Action} :
    a.compareKey b = .eq ↔
      a.name = b.name ∧ a.operation = b.operation ∧ a.params = b.params ∧
        a.returns = b.returns := by
  simp [compareKey, Ordering.then_eq_eq]

end Action
end CallChain
