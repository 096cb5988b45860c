import CallChain.Definition
import CallChain.Json
import CallChain.Json.Reader

/-!
# Definitions as JSON

```json
{
  "name": "DateAdder",
  "syntax": "(<add> days)? (<add> hours)? to",
  "where": [{ "name": "add", "definedAs": "^add|/and" }],
  "actions": [
    { "name": "add", "params": ["int"] },
    { "name": "to", "params": ["Date"], "returns": "Date", "terminator": true }
  ]
}
```

Absent optional fields are not written; an absent field and one that is `null` are the same.
-/

namespace CallChain

/-! ### Writing -/

/-- A field that is left out if it has no value. -/
def optionalField {α : Type} (name : String) (encode : α → Json) (value : Option α) :
    List (String × Json) :=
  (value.map fun a => (name, encode a)).toList

def SubDefinition.toJson (d : SubDefinition) : Json :=
  .object [("name", .text d.name), ("definedAs", .text d.body), ("ownScope", .bool d.ownScope)]

def ActionDefinition.toJson (d : ActionDefinition) : Json :=
  .object <|
    [("name", .text d.name)] ++ optionalField "method" .text d.method ++
    [("params", .list (d.params.map .text)), ("varargs", .bool d.isVariadic)] ++
    optionalField "returns" .text d.returns ++
    [("global", .bool d.isGlobal), ("terminator", .bool d.isTerminator)] ++
    optionalField "autoVarArgs" .bool d.allowsVarargs ++ [("disabled", .bool d.isDisabled)]

def Definition.toJson (d : Definition) : Json :=
  .object <|
    optionalField "name" .text d.name ++
    [("syntax", .text d.root), ("where", .list (d.subExpressions.map (·.toJson))),
      ("actions", .list (d.actions.map (·.toJson))), ("autoVarArgs", .bool d.allowsVarargs)]

/-! ### Reading -/

def SubDefinition.form : Reader.RecordForm SubDefinition where
  name := "SubExpressionDefinition"
  blank := ⟨"", "", false⟩
  fields :=
    [⟨"name", true, fun d => do return { d with name := ← Reader.text }⟩,
      ⟨"definedAs", true, fun d => do return { d with body := ← Reader.text }⟩,
      ⟨"ownScope", false, fun d => do return { d with ownScope := ← Reader.bool }⟩]

def ActionDefinition.form : Reader.RecordForm ActionDefinition where
  name := "ActionDefinition"
  blank := ⟨"", none, [], false, none, false, false, none, false⟩
  fields :=
    [⟨"name", true, fun d => do return { d with name := ← Reader.text }⟩,
      ⟨"method", false, fun d => do return { d with method := ← Reader.optional Reader.text }⟩,
      ⟨"params", false, fun d => do return { d with params := ← Reader.list Reader.text }⟩,
      ⟨"varargs", false, fun d => do return { d with isVariadic := ← Reader.bool }⟩,
      ⟨"returns", false, fun d => do return { d with returns := ← Reader.optional Reader.text }⟩,
      ⟨"global", false, fun d => do return { d with isGlobal := ← Reader.bool }⟩,
      ⟨"terminator", false, fun d => do return { d with isTerminator := ← Reader.bool }⟩,
      ⟨"autoVarArgs", false, fun d => do
        return { d with allowsVarargs := ← Reader.optional Reader.bool }⟩,
      ⟨"disabled", false, fun d => do return { d with isDisabled := ← Reader.bool }⟩]

def Definition.form : Reader.RecordForm Definition where
  name := "DslDefinition"
  blank := ⟨none, "", [], [], true⟩
  fields :=
    [⟨"name", false, fun d => do return { d with name := ← Reader.optional Reader.text }⟩,
      ⟨"syntax", true, fun d => do return { d with root := ← Reader.text }⟩,
      ⟨"where", false, fun d => do
        return { d with subExpressions := ← Reader.list SubDefinition.form.read }⟩,
      ⟨"actions", true, fun d => do
        return { d with actions := ← Reader.list ActionDefinition.form.read }⟩,
      ⟨"autoVarArgs", false, fun d => do return { d with allowsVarargs := ← Reader.bool }⟩]

/-- Reads a definition. -/
def Definition.ofText (text : String) : Except Error Definition :=
  (Definition.form.read.run text).mapError .definition

end CallChain
