import CallChain.Automaton.Dump
import CallChain.Automaton.Export
import CallChain.CommandLine.Arguments
import CallChain.CommandLine.Input
import CallChain.Diagnostic.Drawing
import CallChain.Regex.Printer

/-!
# What the commands do

* `ast` shows the grammar of a definition as it was read, or its syntax trees;
* `check` compiles definitions and shows only what is wrong with them;
* `dump` shows the automaton of a definition.

Results go to standard output; diagnostics, errors and log records go to standard error in the order
in which they arise. Diagnostics end without a line break.
-/

namespace CallChain

/-- What a run leaves behind. -/
structure Outcome where
  exit : Nat
  stdout : String
  stderr : String
deriving DecidableEq, Repr

/-- How output is shown. -/
structure Display where
  isColored : Bool
  verbosity : Nat
deriving DecidableEq, Repr

namespace Display

variable (s : Display)

/-- Is a level shown? Warnings always are. -/
def shows (level : LogLevel) : Bool :=
  match s.verbosity with
  | 0 => level = .warn
  | 1 => level ≠ .trace
  | _ => true

/-- The log records that are shown. -/
def logText (log : Log) : String :=
  String.join ((log.filter fun record => s.shows record.level).map (·.line))

/-- The diagnostics that are worth showing. -/
def reportText (ds : Diagnostics) (sources : SourceMap) : String :=
  ds.render sources s.isColored

end Display

namespace Outcome

/-- A failed run. -/
def failed (stderr : String) : Outcome := ⟨1, "", stderr⟩

/-- An error on a line of its own. -/
def errorLine (message : String) : String := "error: " ++ message ++ "\n"

end Outcome

namespace Input

open Outcome (errorLine)

variable (s : Display) (i : Input)

/-- An error that names the input. -/
def errorAt (message : String) : String := errorLine (i.origin ++ ": " ++ message)

/-! ### One definition -/

/-- The texts of the definition after reading, or what goes to standard error. -/
def readTexts : Except String ReadTexts := do
  let definition ← (i.definition).mapError errorLine
  let texts ← (definition.texts (some i.origin)).mapError fun e => errorLine e.message
  texts.read.mapError fun e => i.errorAt e.message

/-- The text that `ast` shows, before the text itself. -/
def heading : Role → String
  | .root => "# <syntax>\n"
  | .named name ownScope =>
    "# <" ++ name ++ ">" ++ (if ownScope then " (own scope)" else "") ++ "\n"

/-- What `ast` shows of a text. -/
def grammarText (raw : Bool) (t : ReadText) : String :=
  heading t.role ++
    if raw then t.tree.outline true
    else
      match t.regex with
      | some regex => regex.print ++ "\n"
      | none => "(invalid)\n"

def ast (raw : Bool) : Outcome :=
  match i.readTexts with
  | .error stderr => .failed stderr
  | .ok texts =>
    let stderr := s.logText [texts.note] ++ s.reportText texts.diagnostics texts.sources
    if texts.diagnostics.hasErrors && !raw then
      .failed stderr
    else
      ⟨0, "\n".intercalate (texts.all.map (grammarText raw)), stderr⟩

/-- What `dump` shows of an automaton. -/
def automatonText (json : Bool) (a : Automaton) : Except Fault String :=
  if json then a.exported.map fun e => e.toJson.pretty ++ "\n"
  else a.dump (.ofFlag s.isColored)

def dump (json : Bool) : Outcome :=
  match i.readTexts with
  | .error stderr => .failed stderr
  | .ok texts =>
    let analysis := texts.analyze
    let stderr := s.logText [texts.note] ++ s.reportText analysis.diagnostics texts.sources
    if !analysis.isValid then
      .failed stderr
    else
      let (result, log) := analysis.compile
      let stderr := stderr ++ s.logText log
      match result with
      | .error e => .failed (stderr ++ errorLine e.message)
      | .ok compiled =>
        match automatonText s json compiled.automaton with
        | .error f => .failed (stderr ++ errorLine f.message)
        | .ok text => ⟨0, text, stderr⟩

/-! ### Many definitions -/

/-- What becomes of a definition in a batch. -/
inductive Verdict where
  | passed
  | failed
  /-- The list of actions is broken, which ends the batch. -/
  | aborted
deriving DecidableEq, Repr

/-- Does an analysis pass? A strict check takes warnings for errors. -/
def passes (strict : Bool) (a : Analysis) : Bool :=
  a.isValid && !(strict && a.diagnostics.hasWarnings)

/-- What a definition that compiles tells the log. -/
def note (d : Definition) (a : Automaton) : LogRecord :=
  ⟨.info, .check,
    i.origin ++ " (" ++ d.displayName ++ "): " ++ toString a.stateCount ++ " states"⟩

/-- Checks what has been read of a definition. -/
def checkTexts (strict : Bool) (d : Definition) (texts : ReadTexts) : Verdict × String :=
  let analysis := texts.analyze
  let stderr := s.logText [texts.note] ++ s.reportText analysis.diagnostics texts.sources
  if !passes strict analysis then
    (.failed, stderr)
  else
    let (result, log) := analysis.compile
    let stderr := stderr ++ s.logText log
    match result with
    | .error e => (.failed, stderr ++ i.errorAt e.message)
    | .ok compiled => (.passed, stderr ++ s.logText [i.note d compiled.automaton])

/-- Checks one definition, and tells what goes to standard error. -/
def checkOne (strict : Bool) : Verdict × String :=
  match i.definition with
  | .error message => (.failed, errorLine message)
  | .ok d =>
    match d.texts (some i.origin) with
    | .error e => (.aborted, i.errorAt e.message)
    | .ok texts =>
      match texts.read with
      | .error e => (.failed, i.errorAt e.message)
      | .ok read => i.checkTexts s strict d read

end Input

namespace Batch

/-- What goes to standard error when definitions are checked one by one up to the first that ends
the batch, and how many of them failed; none if the batch was ended. -/
def checkAll (s : Display) (strict : Bool) : List Input → Option Nat × String
  | [] => (some 0, "")
  | i :: inputs =>
    match i.checkOne s strict with
    | (.aborted, stderr) => (none, stderr)
    | (verdict, stderr) =>
      let (failed, more) := checkAll s strict inputs
      (failed.map (· + if verdict = .failed then 1 else 0), stderr ++ more)

/-- What a whole batch tells the log. -/
def batchNote (count failed : Nat) : LogRecord :=
  ⟨.debug, .check,
    "checked " ++ toString count ++ " definitions, " ++ toString failed ++ " failed"⟩

/-- Checks all definitions. -/
def check (s : Display) (strict : Bool) (inputs : List Input) : Outcome :=
  match checkAll s strict inputs with
  | (none, stderr) => .failed stderr
  | (some failed, stderr) =>
    ⟨if failed = 0 then 0 else 1, "", stderr ++ s.logText [batchNote inputs.length failed]⟩

end Batch

/-! ### Invocations -/

namespace Invocation

variable (v : Invocation)

/-- The inputs of the command. -/
def inputs (read : String → Except ReadFailure String) (stdin : Except ReadFailure String) :
    List Input :=
  Input.ofPaths read stdin v.command.paths

/-- Runs a command whose output goes to a terminal or elsewhere. -/
def run (isTerminal : Bool) (read : String → Except ReadFailure String)
    (stdin : Except ReadFailure String) : Outcome :=
  let s : Display := ⟨v.color.isColored isTerminal, v.verbosity⟩
  match v.command, v.inputs read stdin with
  | .check _ strict, inputs => Batch.check s strict inputs
  | .ast _ raw, i :: _ => i.ast s raw
  | .dump _ json, i :: _ => i.dump s json
  | _, [] => .failed ""

/-- Runs a command line. A refused one has no output here: its wording is up to who shows it. -/
def runArguments (arguments : List String) (isTerminal : Bool)
    (read : String → Except ReadFailure String) (stdin : Except ReadFailure String) : Outcome :=
  match Invocation.ofArguments arguments with
  | .error .help => ⟨0, "", ""⟩
  | .error .usage => ⟨2, "", ""⟩
  | .ok invocation => invocation.run isTerminal read stdin

end Invocation
end CallChain
