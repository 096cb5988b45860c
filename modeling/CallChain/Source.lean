/-!
# Grammar texts

One definition has several texts: the root grammar and the bodies of its subexpressions. Each is a
source of its own, so that a message can point into it and say which subexpression it is about. A
source map holds them in the order in which they were added, together with the name of the file they
came from, if there is one.
-/

namespace CallChain

/-- Handle to a source: its place in the source map. -/
structure SourceId where
  index : Nat
deriving DecidableEq, Repr

/-- What a source is the text of. -/
inductive SourceKind where
  | root
  | subExpression (name : String)
deriving DecidableEq, Repr

namespace SourceKind

/-- The subexpression a source belongs to; none for the root grammar. -/
def contextName? : SourceKind → Option String
  | root => none
  | subExpression name => some name

def localName : SourceKind → String
  | root => "<syntax>"
  | subExpression name => "<" ++ name ++ ">"

end SourceKind

structure Source where
  kind : SourceKind
  content : String
deriving DecidableEq, Repr

structure SourceMap where
  /-- The file that the texts were read from. -/
  origin : Option String
  sources : List Source
deriving DecidableEq, Repr

namespace SourceMap

def empty (origin : Option String) : SourceMap := ⟨origin, []⟩

variable (m : SourceMap)

def size : Nat := m.sources.length

def isEmpty : Bool := m.sources.isEmpty

/-- A further source, and its handle. -/
def add (source : Source) : SourceId × SourceMap :=
  (⟨m.size⟩, { m with sources := m.sources ++ [source] })

def get? (id : SourceId) : Option Source := m.sources[id.index]?

/-- The text of a source; nothing for a handle from elsewhere. -/
def content (id : SourceId) : String := ((m.get? id).map (·.content)).getD ""

def contextName? (id : SourceId) : Option String := (m.get? id).bind (·.kind.contextName?)

/-- What a source is called in messages: the origin, if known, and the local name. -/
def displayName (id : SourceId) : String :=
  let localName := ((m.get? id).map (·.kind.localName)).getD ""
  match m.origin with
  | some origin => origin ++ " " ++ localName
  | none => localName

end SourceMap
end CallChain
