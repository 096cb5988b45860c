import CallChain.Error
import CallChain.Grammar.Parse
import CallChain.Regex.Lowering
import CallChain.Registry

/-!
# Grammar texts and the trees they are read into

The texts of one definition are the root grammar and the bodies of its subexpressions, whose names
differ. All of them are read even if some have errors; each text without errors also gets its
regular expression.
-/

namespace CallChain

/-- The text of a subexpression. -/
structure NamedText where
  name : String
  body : String
  ownScope : Bool
deriving DecidableEq, Repr

/-- How deeply groups and quantifiers may be nested, unless said otherwise. -/
def defaultNestingLimit : Nat := 512

structure GrammarTexts where
  actions : ActionTable
  root : String
  /-- The subexpressions in definition order. -/
  named : List NamedText
  /-- The file that the texts come from. -/
  origin : Option String
  nestingLimit : Nat

/-- A text that has been read. -/
structure ReadText where
  id : SourceId
  role : Role
  tree : Tree
  /-- Only of a text without errors. -/
  regex : Option Regex

structure ReadTexts where
  actions : ActionTable
  sources : SourceMap
  root : ReadText
  named : List ReadText
  diagnostics : Diagnostics

/-! ### Reading -/

/-- Reads one text. -/
def ReadText.ofText (limit : Nat) (id : SourceId) (role : Role) (text : String) :
    Except Error (ReadText × Diagnostics) :=
  match parse text id limit with
  | .error .nestingLimit => .error .nestingLimit
  | .error (.fault f) => .error (.fault f)
  | .ok parsed =>
    let regex := if parsed.diagnostics.isEmpty then Regex.ofRoot? parsed.root else none
    .ok (⟨id, role, parsed.root, regex⟩, parsed.diagnostics)

namespace GrammarTexts

variable (g : GrammarTexts)

/-- The texts as sources, the root first. -/
def sourceMap : SourceMap where
  origin := g.origin
  sources := ⟨.root, g.root⟩ :: g.named.map fun text => ⟨.subExpression text.name, text.body⟩

/-- Reads the text of a subexpression. The sources of subexpressions follow that of the root. -/
def readNamed (entry : NamedText × Nat) : Except Error (ReadText × Diagnostics) :=
  let (text, index) := entry
  ReadText.ofText g.nestingLimit ⟨index + 1⟩ (.named text.name text.ownScope) text.body

/-- The first name that is defined a second time; `seen` holds the names before. -/
def firstRepeated (seen : List String) : List NamedText → Option String
  | [] => none
  | text :: texts =>
    if seen.contains text.name then some text.name else firstRepeated (text.name :: seen) texts

/-- Reads all texts. -/
def read : Except Error ReadTexts := do
  if let some name := firstRepeated [] g.named then
    throw (.definition ("subexpression `" ++ name ++ "` is defined more than once"))
  let root ← ReadText.ofText g.nestingLimit ⟨0⟩ .root g.root
  let named ← g.named.zipIdx.mapM g.readNamed
  return ⟨g.actions, g.sourceMap, root.1, named.map (·.1), root.2 ++ named.flatMap (·.2)⟩

end GrammarTexts

namespace ReadTexts

/-- All texts, the root first. -/
def all (r : ReadTexts) : List ReadText := r.root :: r.named

/-- What reading tells the log. -/
def note (r : ReadTexts) : LogRecord :=
  ⟨.debug, .grammar, "parsed " ++ toString r.all.length ++ " sources, " ++
    toString r.diagnostics.length ++ " diagnostics"⟩

end ReadTexts
end CallChain
