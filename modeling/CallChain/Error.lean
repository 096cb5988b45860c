import CallChain.Action.Table
import CallChain.Compile.Problem
import CallChain.Diagnostic

/-!
# Errors

What a definition can fail with. Problems of the grammar texts are told by diagnostics, so an error
only counts them.
-/

namespace CallChain

inductive Error where
  /-- Groups or quantifiers of a text are nested too deeply. -/
  | nestingLimit
  /-- Some text has a syntax error. -/
  | misspelled (found : Diagnostics)
  /-- The texts can be read, but not all of their names mean something. -/
  | meaningless (found : Diagnostics)
  | compile (e : CompileError)
  | duplicateAction (clash : DuplicateAction)
  /-- The definition itself is broken, and not one of its texts. -/
  | definition (text : String)
  | fault (f : Fault)
deriving DecidableEq, Repr

namespace Error

def message : Error → String
  | nestingLimit => "recursion limit exceeded"
  | misspelled found =>
    "grammar parsing failed with " ++ toString found.errorCount ++ " errors"
  | meaningless found =>
    "grammar analysis failed with " ++ toString found.errorCount ++ " errors"
  | compile e => e.message
  | duplicateAction clash => "internal error: " ++ clash.message
  | definition text => "invalid definition: " ++ text
  | fault f => f.message

def ofAbort : Abort → Error
  | .problem e => compile e
  | .fault f => fault f

end Error
end CallChain
