import CallChain.Fault
import CallChain.Finite.Dfa
import CallChain.Log

/-!
# What ends a compilation early

A compilation stops at the first name that means nothing, and at the first body that is used within
itself. What was written to the log up to there stays written.
-/

namespace CallChain

/-- The first problem met. The context is the subexpression whose body names it, or none for the
root grammar. -/
inductive CompileError where
  | undefinedIdentifier (name : String) (context : Option String)
  | undefinedSubExpression (name : String) (context : Option String)
  | recursiveSubExpression (name : String)
deriving DecidableEq, Repr

namespace CompileError

/-- Where a name was found. -/
def place : Option String → String
  | none => ""
  | some name => " (in subexpression `" ++ name ++ "`)"

def message : CompileError → String
  | undefinedIdentifier name context => "`" ++ name ++ "` is not a declared action" ++ place context
  | undefinedSubExpression name context =>
    "subexpression `<" ++ name ++ ">` is not defined" ++ place context
  | recursiveSubExpression name => "subexpression `<" ++ name ++ ">` is used recursively"

end CompileError

/-- Why there is no automaton. -/
inductive Abort where
  | problem (e : CompileError)
  | fault (f : Fault)
deriving DecidableEq, Repr

/-! ### Compiling -/

structure Progress where
  /-- The automata of the subexpressions that have been compiled. -/
  compiled : List (String × Dfa)
  log : Log
deriving DecidableEq, Repr

def Progress.start : Progress := ⟨[], []⟩

/-- What a step of a compilation makes, unless it ends the compilation. -/
abbrev CompileM := ExceptT Abort (StateM Progress)

namespace CompileM

/-- Writes a log record. -/
def note (level : LogLevel) (stage : LogStage) (text : String) : CompileM Unit :=
  modify fun progress => { progress with log := progress.log ++ [⟨level, stage, text⟩] }

/-- Ends the compilation with a problem of the grammar. -/
def fail {α : Type} (e : CompileError) : CompileM α := throw (.problem e)

/-- Goes on with the result of an operation that checks its operands. -/
def checked {α : Type} : Except Fault α → CompileM α
  | .ok a => pure a
  | .error f => throw (.fault f)

end CompileM
end CallChain
