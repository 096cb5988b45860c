import CallChain.CommandLine.Run

/-!
# The program

Reads what the arguments name, runs the command, and writes what it leaves behind. Only this module
talks to the outside.
-/

namespace CallChain

def usageText : String :=
  "usage: ast [--raw] [--color WHEN] [-v...] DEFINITION\n" ++
  "       check [--strict] [--color WHEN] [-v...] DEFINITION...\n" ++
  "       dump [--json] [--color WHEN] [-v...] DEFINITION\n"

/-- The text of a file. -/
def readFile (path : String) : IO (Except ReadFailure String) := do
  try
    return textOfBytes (← IO.FS.readBinFile path)
  catch
    | .noFileOrDirectory .. => return .error .missing
    | .invalidArgument _ code details =>
      return .error (if code = -36 then .nameTooLong else .other details)
    | .inappropriateType _ code _ =>
      return .error (if code = 21 then .directory else .notDirectory)
    | e => return .error (.other (toString e))

/-- All that stands on standard input. -/
def readInput : IO (Except ReadFailure String) := do
  let stdin ← IO.getStdin
  let mut bytes := ByteArray.empty
  repeat
    let chunk ← stdin.read 65536
    if chunk.isEmpty then
      break
    bytes := bytes ++ chunk
  return textOfBytes bytes

/-- Reads the files and standard input that a command asks for. -/
def runInvocation (invocation : Invocation) : IO Outcome := do
  let paths := invocation.command.paths
  let contents ← (paths.filter (· ≠ "-")).mapM fun path => return (path, ← readFile path)
  let stdin ← if paths.contains "-" then readInput else pure (.ok "")
  let isTerminal := (← (← IO.getStdout).isTty) && (← (← IO.getStderr).isTty)
  return invocation.run isTerminal
    (fun path => (contents.lookup path).getD (.error .missing)) stdin

end CallChain

open CallChain in
def main (arguments : List String) : IO UInt32 := do
  match Invocation.ofArguments arguments with
  | .error .help =>
    IO.print usageText
    return 0
  | .error .usage =>
    IO.eprint usageText
    return 2
  | .ok invocation =>
    let outcome ← runInvocation invocation
    IO.eprint outcome.stderr
    IO.print outcome.stdout
    return outcome.exit.toUInt32
