import CallChain.Compile
import CallChain.Resolution
import CallChain.Texts

/-!
# From texts to an automaton

Texts are read, analyzed and compiled. Analysis needs the regular expressions of all texts, so it is
skipped if one has an error; compilation needs an analysis without errors. Each stage keeps what the
ones before it reported.
-/

namespace CallChain

structure Analysis where
  texts : ReadTexts
  /-- None if analysis was skipped. -/
  registry : Option Registry
  /-- What reading and analysis reported. -/
  diagnostics : Diagnostics
  /-- The subexpressions that are never used. -/
  unused : List String

/-- An automaton, and the warnings found on the way to it. -/
structure Compiled where
  automaton : Automaton
  diagnostics : Diagnostics
  sources : SourceMap

namespace ReadText

/-- The body of a text; none without a regular expression. -/
def subExpression? (t : ReadText) : Option SubExpression :=
  t.regex.map fun regex => ⟨t.role, regex, t.id, t.tree.extent⟩

/-- Adds the body of a text to a registry. -/
def define? (r : Registry) (t : ReadText) : Option Registry := do
  let body ← t.subExpression?
  let (_, r) ← (r.define body).toOption
  return r

end ReadText

namespace ReadTexts

variable (r : ReadTexts)

/-- The bodies of all texts; none if one has no regular expression. -/
def registry? : Option Registry := do
  let root ← r.root.subExpression?
  let registry ← (Registry.ofRoot? root).toOption
  r.named.foldlM ReadText.define? registry

/-- Resolves the names of all bodies. -/
def analyze : Analysis :=
  if r.diagnostics.hasErrors then
    ⟨r, none, r.diagnostics, []⟩
  else
    match r.registry? with
    | none => ⟨r, none, r.diagnostics, []⟩
    | some registry =>
      let resolved := registry.resolve r.actions
      ⟨r, some registry, r.diagnostics ++ resolved.diagnostics, resolved.unused⟩

end ReadTexts

namespace Analysis

variable (a : Analysis)

/-- Is there nothing but warnings? -/
def isValid : Bool := !a.diagnostics.hasErrors

/-- Compiles what has been analyzed. -/
def compile : Except Error Compiled × Log :=
  if a.diagnostics.any fun d => d.isError && d.kind.isSyntaxError then
    (.error (.misspelled a.diagnostics), [])
  else if a.diagnostics.hasErrors then
    (.error (.meaningless a.diagnostics), [])
  else
    match a.registry with
    | none => (.error (.fault .missingRegistry), [])
    | some registry =>
      match registry.compile a.texts.actions with
      | (.error abort, log) => (.error (.ofAbort abort), log)
      | (.ok automaton, log) => (.ok ⟨automaton, a.diagnostics, a.texts.sources⟩, log)

end Analysis

/-- Reads, analyzes and compiles. -/
def GrammarTexts.compile (g : GrammarTexts) : Except Error Compiled × Log :=
  match g.read with
  | .error e => (.error e, [])
  | .ok texts =>
    let (result, log) := texts.analyze.compile
    (result, texts.note :: log)

end CallChain
