import CallChain.Text.Plain

/-!
# Log records

What the stages of a compilation tell about their work. A record names the stage it comes from; the
command line shows the records from a chosen level on, each on a line of its own. Further lines in
the text of a record are indented.
-/

namespace CallChain

/-- Levels, the most important first. -/
inductive LogLevel where
  | warn
  | info
  | debug
  | trace
deriving DecidableEq, Repr

namespace LogLevel

def word : LogLevel → String
  | warn => "WARN"
  | info => "INFO"
  | debug => "DEBUG"
  | trace => "TRACE"

/-- Place in the order of importance. -/
def rank : LogLevel → Nat
  | warn => 0
  | info => 1
  | debug => 2
  | trace => 3

end LogLevel

/-- The stages that log. -/
inductive LogStage where
  | grammar
  | compile
  | scope
  | check
deriving DecidableEq, Repr

/-- What a stage is called in the log. -/
def LogStage.target : LogStage → String
  | grammar => "chainsmith_compiler::grammar"
  | compile => "chainsmith_compiler::compile"
  | scope => "chainsmith_compiler::compile::scope"
  | check => "chainsmith::commands::check"

structure LogRecord where
  level : LogLevel
  stage : LogStage
  text : String
deriving DecidableEq, Repr

/-- Records in the order in which they were written. -/
abbrev Log := List LogRecord

namespace LogRecord

/-- Level and text. -/
def brief (r : LogRecord) : String := r.level.word ++ " " ++ r.text

/-- A text with four blanks in front of every line but the first. -/
def indented (text : String) : String :=
  String.ofList (text.toList.flatMap fun c => if c = '\n' then "\n    ".toList else [c])

/-- The record on a line of its own, the level padded to five characters. Control sequences in its
text are left out, and one that does not end takes the end of the line with it. -/
def line (r : LogRecord) : String :=
  let padding := String.ofList (List.replicate (5 - r.level.word.length) ' ')
  Text.plain
    ("[" ++ r.level.word ++ padding ++ " " ++ r.stage.target ++ "] " ++ indented r.text ++ "\n")

end LogRecord
end CallChain
