import CallChain.Action.Table
import CallChain.Diagnostic
import CallChain.Registry

/-!
# Resolving names

Starting at the root, every body that a chain of references reaches is visited once, depth first.
Each literal that names no action is reported; of the references of a body each name is looked at
where it occurs first, and reported if no subexpression has it or if it belongs to a body on the way
from the root, which the reference would repeat within itself. Definitions that were never reached
are reported last, in definition order.

All problems are found, whereas a compilation stops at the first.
-/

namespace CallChain

/-- How far a resolution has come. -/
structure Visits where
  /-- Names of the bodies that have been visited. -/
  done : List String
  reports : Diagnostics
deriving DecidableEq, Repr

namespace Visits

/-- A diagnostic about a name in the body of an expression. -/
def problem (kind : DiagnosticKind) (expr : SubExpression) (name : Name) : Diagnostic :=
  ⟨kind, expr.source, name.span, some name.text, []⟩

def report (v : Visits) (d : Diagnostic) : Visits := { v with reports := v.reports ++ [d] }

end Visits

/-- The first occurrence of each name. -/
def firstOccurrences (seen : List String) : List Name → List Name
  | [] => []
  | name :: names =>
    if seen.contains name.text then firstOccurrences seen names
    else name :: firstOccurrences (name.text :: seen) names

namespace Registry

variable (r : Registry) (actions : ActionTable)

/-- The literals of a body that name no action. -/
def undeclared (expr : SubExpression) : Diagnostics :=
  (expr.body.literals.filter fun name => !actions.containsName name.text).map
    (Visits.problem .undefinedIdentifier expr)

/-- Follows one reference; `visit` visits the body of a definition below the names in `path`. -/
def follow (expr : SubExpression) (path : List String)
    (visit : SubExpression → List String → Visits → Visits) (v : Visits) (name : Name) : Visits :=
  match r.find? name.text with
  | none => v.report (Visits.problem .undefinedSubExpression expr name)
  | some target =>
    if path.contains name.text then
      v.report (Visits.problem .recursiveSubExpression expr name)
    else if v.done.contains name.text then
      v
    else
      let v := visit target (name.text :: path) v
      { v with done := name.text :: v.done }

/-- Visits a body. `path` holds the names of the bodies between the root and this one, which is at
most all of them: `depth` is the number of names that are left. -/
def visit : Nat → SubExpression → List String → Visits → Visits
  | depth, expr, path, v =>
    let v := { v with reports := v.reports ++ undeclared actions expr }
    let below :=
      match depth with
      | 0 => fun _ _ v => v
      | depth + 1 => visit depth
    (firstOccurrences [] expr.body.refs).foldl (r.follow expr path below) v

/-- What a visit from the root finds. -/
def visits : Visits := r.visit actions r.size r.root [] ⟨[], []⟩

/-- What resolving finds: the problems, and the names that are never used. -/
structure Resolved where
  diagnostics : Diagnostics
  unused : List String
deriving DecidableEq, Repr

/-- The warning about a definition that is never used. -/
def unusedWarning (entry : String × SubExpression) : Diagnostic :=
  ⟨.unusedSubExpression, entry.2.source, entry.2.span, some entry.1, []⟩

def resolve : Resolved :=
  let v := r.visits actions
  let unused := r.named.filter fun entry => !v.done.contains entry.1
  ⟨v.reports ++ unused.map unusedWarning, unused.map (·.1)⟩

end Registry
end CallChain
