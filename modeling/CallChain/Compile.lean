import CallChain.Compile.Assembly
import CallChain.Compile.Fragment
import CallChain.Compile.Saturation
import CallChain.Compile.Scope
import CallChain.Registry

/-!
# Compiling a registry

The body of each subexpression becomes a deterministic automaton when it is first referred to, and
is remembered by name. A body with a scope of its own is closed, so that no anchor leaves it; the
anchors of the others belong to the scope around them. The automaton of the root is saturated and
assembled.

Bodies are compiled depth first. `path` holds the names of the bodies that are not finished, and a
reference to one of them is recursive.
-/

namespace CallChain

namespace Registry

variable (r : Registry) (a : Alphabet)

/-- Closes the scope of a body. The words of the body may spell out the start anchor or leave it
away. -/
def compileScope (n : Nfa) (body : Fragment) : CompileM Dfa := do
  let (n, start) ← .checked (n.makeSymbol (a.anchorSymbol .start))
  let (n, start) ← .checked (n.makeOptional start)
  let (n, whole) ← .checked (n.makeSequence [start, body])
  let words ← .checked (n.determinized whole)
  let anchored ← .checked (words.intersect (← .checked a.scopeLanguage))
  let anchored ← .checked anchored.minimized
  let closed ← .checked (a.closeScope anchored)
  if (← .checked (a.scopeStart anchored)).isSome then
    .note .trace .scope ("closed scope: " ++ toString anchored.size ++ " states in, " ++
      toString closed.size ++ " out")
  return closed

/-- Compiles the body of an expression; `lookup` compiles what it refers to. -/
def compileExpr (lookup : Name → CompileM Dfa) (expr : SubExpression) : CompileM Dfa := do
  let (n, body) ← expr.body.toFragment a expr.name lookup (.ofAlphabet a.size)
  if expr.ownScope then
    compileScope a n body
  else
    .checked (← .checked (n.determinized body)).minimized

/-- The automaton that a reference stands for. `compile` compiles a body below some names. -/
def lookup (compile : SubExpression → List String → CompileM Dfa) (context : Option String)
    (path : List String) (name : Name) : CompileM Dfa := do
  if let some d := (← get).compiled.lookup name.text then
    return d
  match r.find? name.text with
  | none => .fail (.undefinedSubExpression name.text context)
  | some target =>
    if path.contains name.text then
      .fail (.recursiveSubExpression name.text)
    else
      let d ← compile target (name.text :: path)
      .note .debug .compile ("subexpression <" ++ name.text ++ ">: " ++ toString d.size ++
        " states" ++ if target.ownScope then ", own scope" else "")
      modify fun progress => { progress with compiled := (name.text, d) :: progress.compiled }
      return d

/-- Compiles a body. `path` holds the names of the bodies that wait for it, at most all of them:
`depth` is the number of names that are left. A longer path would repeat a name. -/
def compileBody : Nat → SubExpression → List String → CompileM Dfa
  | depth, expr, path =>
    let below :=
      match depth with
      | 0 => fun target _ => .fail (.recursiveSubExpression (target.name.getD ""))
      | depth + 1 => compileBody depth
    compileExpr a (r.lookup below expr.name path) expr

/-- Warns of the actions that end the chain wherever they are taken, and counts the symbols. -/
def describeActions (t : ActionTable) : CompileM Unit := do
  for id in t.globalTerminators do
    let label ← .checked (t.label id)
    .note .warn .compile ("action `" ++ label ++
      "` is global and a terminator: it ends the chain from every state")
  .note .debug .compile ("alphabet: " ++ toString a.actionCount ++ " actions under " ++
    toString t.names.length ++ " names")

/-- The steps of a compilation. -/
def compileSteps (t : ActionTable) : CompileM Automaton := do
  let a := Alphabet.ofTable t
  describeActions a t
  let root ← r.compileBody a r.size r.root []
  .note .debug .compile ("root automaton: " ++ toString root.size ++ " states")
  let saturated ← .checked (a.saturated t root)
  .note .debug .compile ("postprocessed automaton: " ++ toString saturated.size ++ " states, " ++
    toString saturated.transitionCount ++ " transitions")
  let automaton ← .checked (a.assemble t saturated)
  .note .debug .compile ("compiled automaton: " ++ toString automaton.stateCount ++ " states")
  return automaton

/-- The chain automaton of a registry, or what ended the compilation, and the log. -/
def compile (t : ActionTable) : Except Abort Automaton × Log :=
  let (result, progress) := (r.compileSteps t).run Progress.start
  (result, progress.log)

end Registry
end CallChain
