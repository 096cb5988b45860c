import CallChain.Definition.Json
import CallChain.Proofs.Json.Layouts

/-!
# Definitions and their texts

A definition comes back from its text. Each record is written in the order of the fields of its
form, and a field that is left out has nothing in the blank record either, so the values of the
fields lead from the blank record to the one that was written (`Reader.Fills`).

* `accepts_toJson`: the three records.
* `ofText_toJson`: whole texts.
-/

namespace CallChain

open Reader (Accepts Fills)
open Json (IsLayout)

variable {α σ : Type} {write : Nat → Json → List Char}

/-- A field that is left out, or has a value. -/
theorem fills_optionalField {spell : Json → List Char} {field : Reader.Field σ}
    {fields : List (Reader.Field σ)} {values : List (String × Json)} {record record' : σ}
    {r : Reader α} {encode : α → Json} {put : Option α → σ} (value : Option α)
    (hread : field.read record = do return put (← r.optional))
    (hdefault : field.isRequired = false) (hnone : put none = record)
    (hvalue : ∀ a, Accepts r (spell (encode a)) a)
    (h : Fills spell fields values (put value) record') :
    Fills spell (field :: fields) (optionalField field.name encode value ++ values) record
      record' := by
  cases value with
  -- left out, it stays what it is in the blank record
  | none => exact .omitted hdefault (hnone ▸ h)
  | some a =>
    refine .given ?_ h
    rw [hread]
    exact (hvalue a).optional.map

theorem SubDefinition.accepts_toJson (hw : IsLayout write) (depth : Nat) (d : SubDefinition) :
    Accepts form.read (write depth d.toJson) d := by
  obtain ⟨gap, hgap, hchars⟩ := hw.object depth _
  refine Reader.accepts_record (by decide) ?_ hgap hchars
  refine .given (hw.accepts_text _ d.name).map ?_
  refine .given (hw.accepts_text _ d.body).map ?_
  exact .given (hw.accepts_bool _ d.ownScope).map .nil

theorem ActionDefinition.accepts_toJson (hw : IsLayout write) (depth : Nat) (d : ActionDefinition) :
    Accepts form.read (write depth d.toJson) d := by
  obtain ⟨gap, hgap, hchars⟩ := hw.object depth _
  have htext := hw.accepts_text (depth + 1)
  have hbool := hw.accepts_bool (depth + 1)
  refine Reader.accepts_record (by decide) ?_ hgap hchars
  simp only [List.append_assoc]
  refine .given (htext d.name).map ?_
  refine fills_optionalField d.method rfl rfl rfl htext ?_
  refine .given (hw.accepts_list _ (hw.accepts_text _) d.params).map ?_
  refine .given (hbool d.isVariadic).map ?_
  refine fills_optionalField d.returns rfl rfl rfl htext ?_
  refine .given (hbool d.isGlobal).map ?_
  refine .given (hbool d.isTerminator).map ?_
  refine fills_optionalField d.allowsVarargs rfl rfl rfl hbool ?_
  exact .given (hbool d.isDisabled).map .nil

namespace Definition

theorem accepts_toJson (hw : IsLayout write) (depth : Nat) (d : Definition) :
    Accepts form.read (write depth d.toJson) d := by
  obtain ⟨gap, hgap, hchars⟩ := hw.object depth _
  refine Reader.accepts_record (by decide) ?_ hgap hchars
  refine fills_optionalField d.name rfl rfl rfl (hw.accepts_text _) ?_
  refine .given (hw.accepts_text _ d.root).map ?_
  refine .given (hw.accepts_list _ (SubDefinition.accepts_toJson hw _) d.subExpressions).map ?_
  refine .given (hw.accepts_list _ (ActionDefinition.accepts_toJson hw _) d.actions).map ?_
  exact .given (hw.accepts_bool _ d.allowsVarargs).map .nil

/-- A definition comes back from every way of writing it. -/
theorem ofText_layout (hw : IsLayout write) (d : Definition) :
    ofText (String.ofList (write 0 d.toJson)) = .ok d := by
  rw [ofText, Reader.run_eq_ok (accepts_toJson hw 0 d)]
  rfl

/-- A definition comes back from its text. Whatever text it was read from first, what it is written
as stays the same when that is read and written again. -/
theorem ofText_toJson : ∀ write ∈ [Json.compact, Json.pretty],
    (∀ d : Definition, ofText (write d.toJson) = .ok d) ∧
    ∀ text d, ofText text = .ok d →
      ∃ d', ofText (write d.toJson) = .ok d' ∧ write d'.toJson = write d.toJson := by
  intro write hwrite
  have hround : ∀ d : Definition, ofText (write d.toJson) = .ok d := by
    intro d
    rcases List.mem_cons.1 hwrite with rfl | hwrite
    · have h := ofText_layout Json.isLayout_compact d
      rwa [String.ofList_toList] at h
    · have h := ofText_layout Json.isLayout_pretty d
      rw [List.mem_singleton.1 hwrite]
      rwa [String.ofList_toList] at h
  exact ⟨hround, fun _ d _ => ⟨d, hround d, rfl⟩⟩

/-- Fields in another order, one of them `null`, other blanks, and escapes that are not written. -/
def looseText : String :=
  "\x7b \"actions\": [\x7b\"name\": \"t\\u006f\", \"returns\": null\x7d],\r\n" ++
    "\"syntax\": \"\\\"to\\/\\u0001\" \x7d"

theorem ofText_toJson_loose :
    let d : Definition := ⟨none, "\"to/\x01", [],
      [⟨"to", none, [], false, none, false, false, none, false⟩], true⟩
    ofText looseText = .ok d ∧ ofText d.toJson.compact = .ok d ∧ ofText d.toJson.pretty = .ok d ∧
      ∃ d', ofText d.toJson.compact = .ok d' ∧ d'.toJson.compact = d.toJson.compact := by
  intro d
  have hread : ofText looseText = .ok d := by decide +kernel
  obtain ⟨hcompact, hstable⟩ := ofText_toJson Json.compact List.mem_cons_self
  obtain ⟨hpretty, -⟩ :=
    ofText_toJson Json.pretty (List.mem_cons_of_mem _ (List.mem_singleton_self _))
  exact ⟨hread, hcompact d, hpretty d, hstable looseText d hread⟩

end Definition
end CallChain
