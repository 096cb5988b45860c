import CallChain.Definition.Json

/-!
# Reading definition files

A definition is named by the path of its file, or by `-` for standard input. Standard input can be
read once; a second reader of it finds nothing.
-/

namespace CallChain

/-- Why a file has no text. -/
inductive ReadFailure where
  | missing
  | notUtf8
  | directory
  /-- A part of the path is a file. -/
  | notDirectory
  /-- The path, or a part of it, is too long to name a file. -/
  | nameTooLong
  | other (reason : String)
deriving DecidableEq, Repr

def ReadFailure.message : ReadFailure → String
  | missing => "No such file or directory (os error 2)"
  | notUtf8 => "stream did not contain valid UTF-8"
  | directory => "Is a directory (os error 21)"
  | notDirectory => "Not a directory (os error 20)"
  | nameTooLong => "File name too long (os error 36)"
  | other reason => reason

/-- The text of a file, if it has one. -/
def textOfBytes (bytes : ByteArray) : Except ReadFailure String :=
  match String.fromUTF8? bytes with
  | some text => .ok text
  | none => .error .notUtf8

/-- A named text. -/
structure Input where
  path : String
  content : Except ReadFailure String

namespace Input

/-- The inputs at some paths. -/
def ofPaths (read : String → Except ReadFailure String) (stdin : Except ReadFailure String) :
    List String → List Input
  | [] => []
  | path :: paths =>
    if path = "-" then ⟨path, stdin⟩ :: ofPaths read (.ok "") paths
    else ⟨path, read path⟩ :: ofPaths read stdin paths

variable (i : Input)

/-- What the input is called where its texts are shown. -/
def origin : String := if i.path = "-" then "<stdin>" else i.path

/-- The definition, or what is wrong with the file. -/
def definition : Except String Definition :=
  match i.content with
  | .error failure => .error ("failed to read '" ++ i.path ++ "': " ++ failure.message)
  | .ok text => (Definition.ofText text).mapError fun e => i.path ++ ": " ++ e.message

end Input

/-! ### Directories -/

/-- Where a path leads. -/
inductive Place where
  /-- The directory itself, or a file or directory below it. -/
  | inside (parts : List String)
  /-- A directory around it, in which nothing has a name. -/
  | outside
deriving DecidableEq, Repr

/-- The directory that a place lies in; the outermost one lies in itself. -/
def Place.parent : Place → Place
  | inside [] => outside
  | inside parts => inside parts.dropLast
  | outside => outside

/-- The files below a directory, each with the parts of its path. -/
structure Directory where
  files : List (List String × ByteArray)

namespace Directory

/-- How many bytes a name may have. -/
def maxPart : Nat := 255

/-- How many bytes a path may have. -/
def maxPath : Nat := 4095

variable (d : Directory)

def isFile (parts : List String) : Bool := d.files.any (·.1 == parts)

def isFileAt : Place → Bool
  | .inside parts => d.isFile parts
  | .outside => false

/-- Is there a file below a path? -/
def hasBelow (parts : List String) : Bool :=
  d.files.any fun (file, _) => parts.length < file.length && parts.isPrefixOf file

/-- Goes from a place to one of the names in it. -/
def enter (place : Place) (part : String) : Except ReadFailure Place :=
  if maxPart < part.utf8ByteSize then .error .nameTooLong
  else
    match place with
    | .outside => .error .missing
    | .inside place =>
      let next := place ++ [part]
      if d.isFile next || d.hasBelow next then .ok (.inside next) else .error .missing

/-- Follows a path from a place. -/
def walk (place : Place) : List String → Except ReadFailure Place
  | [] => .ok place
  | part :: parts =>
    if d.isFileAt place then .error .notDirectory
    else if part = "" || part = "." then walk place parts
    else if part = ".." then walk place.parent parts
    else
      match d.enter place part with
      | .error failure => .error failure
      | .ok next => walk next parts

/-- The parts of a path between its slashes. -/
def parts (path : String) : List String :=
  (path.toList.splitOn '/').map String.ofList

/-- The text of the file at a path. A path with a slash in front starts outside of the directory. -/
def read (path : String) : Except ReadFailure String := do
  if maxPath < path.utf8ByteSize then
    throw .nameTooLong
  let start : Place := if path.startsWith "/" then .outside else .inside []
  match ← d.walk start (parts path) with
  | .outside => throw .directory
  | .inside place =>
    match d.files.find? (·.1 == place) with
    | some (_, bytes) => textOfBytes bytes
    | none => throw .directory

end Directory
end CallChain
