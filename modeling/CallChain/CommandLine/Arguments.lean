/-!
# Command line arguments

```text
ast   [--raw]    [--color WHEN] [-v...] DEFINITION
check [--strict] [--color WHEN] [-v...] DEFINITION...
dump  [--json]   [--color WHEN] [-v...] DEFINITION
```

Flags may stand between the definitions; after `--` everything is a definition. The verbosity may
also be given before the command, but counts only if it is not given behind it. Only the verbosity
flag may be repeated.
-/

namespace CallChain

/-- When output is colored. -/
inductive ColorChoice where
  /-- On a terminal. -/
  | auto
  | always
  | never
deriving DecidableEq, Repr

namespace ColorChoice

def ofText? (text : String) : Option ColorChoice :=
  if text = "auto" then some auto
  else if text = "always" then some always
  else if text = "never" then some never
  else none

/-- Is output colored, given whether it goes to a terminal? -/
def isColored (isTerminal : Bool) : ColorChoice → Bool
  | auto => isTerminal
  | always => true
  | never => false

end ColorChoice

inductive Command where
  | ast (path : String) (raw : Bool)
  | check (paths : List String) (strict : Bool)
  | dump (path : String) (json : Bool)
deriving DecidableEq, Repr

namespace Command

/-- The definitions to read, `-` being standard input. -/
def paths : Command → List String
  | ast path _ => [path]
  | check paths _ => paths
  | dump path _ => [path]

end Command

structure Invocation where
  command : Command
  color : ColorChoice
  /-- Number of times that more log records were asked for. -/
  verbosity : Nat
deriving DecidableEq, Repr

/-- Why there is nothing to run. -/
inductive Refusal where
  | help
  | usage
deriving DecidableEq, Repr

/-! ### Behind the command -/

/-- The arguments of a command as far as they have been read. -/
structure Arguments where
  paths : List String
  /-- Was the flag of the command given? -/
  flag : Bool
  color : Option ColorChoice
  verbosity : Nat
deriving DecidableEq, Repr

/-- Which arguments a command takes. -/
structure Signature where
  /-- The one flag that only this command has. -/
  flag : String
  takesMany : Bool

def Arguments.setColor (a : Arguments) (text : String) : Except Refusal Arguments :=
  match a.color, ColorChoice.ofText? text with
  | none, some color => .ok { a with color := some color }
  | _, _ => .error .usage

namespace Signature

variable (s : Signature)

def addPath (a : Arguments) (path : String) : Except Refusal Arguments :=
  if path = "" || (!s.takesMany && !a.paths.isEmpty) then .error .usage
  else .ok { a with paths := a.paths ++ [path] }

end Signature

/-- The letters of an argument such as `-vv`; how often `v` occurs. -/
def shortFlags (count : Nat) : List Char → Except Refusal Nat
  | [] => .ok count
  | 'v' :: rest => shortFlags (count + 1) rest
  | 'h' :: _ => .error .help
  | _ :: _ => .error .usage

/-- The text behind a given beginning. -/
def afterPrefix? (start : String) (text : String) : Option String :=
  if start.toList.isPrefixOf text.toList then
    some (String.ofList (text.toList.drop start.toList.length))
  else
    none

namespace Signature

variable (s : Signature)

/-- Reads an argument that begins with a hyphen and has no value of its own to follow. -/
def addFlag (a : Arguments) (argument : String) : Except Refusal Arguments :=
  if argument = "--verbose" then .ok { a with verbosity := a.verbosity + 1 }
  else if argument = "--help" then .error .help
  else if argument = s.flag then
    if a.flag then .error .usage else .ok { a with flag := true }
  else
    match afterPrefix? "--color=" argument with
    | some text => a.setColor text
    | none =>
      match argument.toList with
      | '-' :: '-' :: _ => .error .usage
      | _ :: letters =>
        (shortFlags a.verbosity letters).map fun verbosity => { a with verbosity }
      | [] => .error .usage

/-- Is an argument a flag, and not a definition? -/
def isFlag (argument : String) : Bool :=
  argument.toList.head? = some '-' && argument ≠ "-"

/-- Reads the arguments behind the command. -/
def collect (a : Arguments) : List String → Except Refusal Arguments
  | [] => .ok a
  | argument :: rest =>
    if argument = "--" then
      rest.foldlM s.addPath a
    else if argument = "--color" then
      match rest with
      | [] => .error .usage
      | value :: rest =>
        match a.setColor value with
        | .error refusal => .error refusal
        | .ok a => collect a rest
    else
      match if isFlag argument then s.addFlag a argument else s.addPath a argument with
      | .error refusal => .error refusal
      | .ok a => collect a rest

end Signature

/-! ### All arguments -/

/-- What makes a command of its arguments. -/
def commandNamed? (name : String) : Option (Signature × (List String → Bool → Command)) :=
  if name = "ast" then
    some (⟨"--raw", false⟩, fun paths flag => .ast (paths.headD "") flag)
  else if name = "check" then
    some (⟨"--strict", true⟩, fun paths flag => .check paths flag)
  else if name = "dump" then
    some (⟨"--json", false⟩, fun paths flag => .dump (paths.headD "") flag)
  else
    none

/-- Does asking for help on some commands name only one that exists? -/
def isHelpTopic : List String → Bool
  | [] => true
  | [name] => name = "help" || (commandNamed? name).isSome
  | _ => false

namespace Invocation

/-- Reads the arguments from the command on, and those before it, of which `verbosity` are about the
verbosity. -/
def ofArgumentsFrom (verbosity : Nat) : List String → Except Refusal Invocation
  | [] => .error .usage
  | argument :: rest =>
    match commandNamed? argument with
    | some (signature, command) => do
      let a ← signature.collect ⟨[], false, none, 0⟩ rest
      if a.paths.isEmpty then
        throw .usage
      return ⟨command a.paths a.flag, a.color.getD .auto,
        if a.verbosity = 0 then verbosity else a.verbosity⟩
    | none =>
      if argument = "help" then
        .error (if isHelpTopic rest then .help else .usage)
      else if argument = "--help" then
        .error .help
      else if argument = "--verbose" then
        ofArgumentsFrom (verbosity + 1) rest
      else
        match argument.toList with
        | '-' :: '-' :: _ => .error .usage
        | '-' :: letter :: letters =>
          match shortFlags verbosity (letter :: letters) with
          | .error refusal => .error refusal
          | .ok verbosity => ofArgumentsFrom verbosity rest
        | _ => .error .usage

def ofArguments (arguments : List String) : Except Refusal Invocation :=
  ofArgumentsFrom 0 arguments

end Invocation
end CallChain
