import CallChain.Analysis

/-!
# Definitions

A definition declares the actions of a chain and gives its grammar: the root text and the bodies of
its subexpressions. Disabled actions are left out.
-/

namespace CallChain

structure SubDefinition where
  name : String
  body : String
  ownScope : Bool
deriving DecidableEq, Repr

structure ActionDefinition where
  name : String
  /-- The operation that declares the method, if it is not called like the action. -/
  method : Option String
  params : List String
  /-- The last parameter is variadic already. -/
  isVariadic : Bool
  returns : Option String
  isGlobal : Bool
  isTerminator : Bool
  /-- May the action be offered as a variadic method? The definition has a default. -/
  allowsVarargs : Option Bool
  isDisabled : Bool
deriving DecidableEq, Repr

structure Definition where
  name : Option String
  root : String
  subExpressions : List SubDefinition
  actions : List ActionDefinition
  /-- For actions that do not say so themselves. -/
  allowsVarargs : Bool
deriving DecidableEq, Repr

namespace ActionDefinition

/-- The declared action. Only an action with parameters, the last of which is not variadic already,
may be offered as a variadic method. -/
def action (d : ActionDefinition) (allowsVarargs : Bool) : Action where
  name := d.name
  operation := d.method.getD d.name
  params := d.params
  returns := d.returns.getD "void"
  isGlobal := d.isGlobal
  isTerminator := d.isTerminator
  allowsVarargs := d.allowsVarargs.getD allowsVarargs && !d.params.isEmpty && !d.isVariadic

end ActionDefinition

namespace Definition

variable (d : Definition)

def displayName : String := d.name.getD "<unnamed>"

/-- The table of the actions that are not disabled. -/
def table : Except DuplicateAction ActionTable :=
  ActionTable.ofActions? ((d.actions.filter (!·.isDisabled)).map (·.action d.allowsVarargs))

/-- The texts of the definition, read from a file or not. -/
def texts (origin : Option String) : Except Error GrammarTexts :=
  match d.table with
  | .error clash => .error (.duplicateAction clash)
  | .ok t =>
    .ok ⟨t, d.root, d.subExpressions.map fun s => ⟨s.name, s.body, s.ownScope⟩, origin,
      defaultNestingLimit⟩

def compile : Except Error Compiled × Log :=
  match d.texts none with
  | .error e => (.error e, [])
  | .ok texts => texts.compile

end Definition
end CallChain
