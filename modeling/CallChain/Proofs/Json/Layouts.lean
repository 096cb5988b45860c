import CallChain.Proofs.Json.Reading

/-!
# Layouts

The two written forms of a value differ in the blanks between its parts alone, and readers do not
care for these. What is read of them is said once, for every way of writing that writes the strings
and the words the same and puts the parts of a list or an object between brackets (`IsLayout`).

* `isLayout_compact`, `isLayout_pretty`: the two written forms.
* `IsLayout.accepts_text`, `IsLayout.accepts_bool`, `IsLayout.accepts_list`: values come back.
-/

namespace CallChain

namespace Json

open Reader (IsGap Remaining Bracketed entryChars)

/-- A way to write values at a depth: strings and words as they are, lists and objects as their
parts one level deeper. -/
structure IsLayout (write : Nat → Json → List Char) : Prop where
  text : ∀ depth s, write depth (.text s) = (quoted s).toList
  bool : ∀ depth b, write depth (.bool b) = (ofBool b).toList
  list : ∀ depth items,
    Bracketed '[' ']' (items.map (write (depth + 1))) (write depth (.list items))
  object : ∀ depth fields, ∃ gap, IsGap gap ∧
    Bracketed '\x7b' '\x7d' (fields.map (entryChars (write (depth + 1)) gap))
      (write depth (.object fields))

variable {gap gap' : List Char} (opening closing : Char) (parts : List (List Char))

/-! ### Brackets -/

theorem remaining_flatMap (hgap : IsGap gap) (hgap' : IsGap gap') :
    Remaining closing false parts
      (parts.flatMap (fun part => ',' :: gap ++ part) ++ (gap' ++ [closing])) := by
  induction parts with
  | nil => exact .nil hgap'
  | cons part parts ih =>
    rw [List.flatMap_cons, List.append_assoc, List.append_assoc]
    exact .next Reader.isGap_nil hgap ih

theorem bracketed_empty : Bracketed opening closing [] [opening, closing] :=
  ⟨_, rfl, .nil Reader.isGap_nil⟩

/-- The same gap before each part, and another one behind the last. -/
theorem bracketed_intercalate (hgap : IsGap gap) (hgap' : IsGap gap') :
    Bracketed opening closing parts
      (opening :: (gap ++ ((',' :: gap).intercalate parts ++ (gap' ++ [closing])))) := by
  refine ⟨_, rfl, ?_⟩
  cases parts with
  | nil =>
    -- nothing stands between the two gaps
    rw [List.intercalate_nil, List.nil_append, ← List.append_assoc]
    exact .nil (hgap.append hgap')
  | cons part parts =>
    rw [intercalate_cons_eq_flatMap, List.append_assoc]
    exact .first hgap (remaining_flatMap closing parts hgap hgap')

/-- Fields as they are written, as characters. -/
theorem toList_entries {write : Json → String} {colon : String} (hcolon : colon.toList = ':' :: gap)
    (fields : List (String × Json)) :
    (fields.map fun (key, value) => quoted key ++ colon ++ write value).map String.toList =
      fields.map (entryChars (fun value => (write value).toList) gap) := by
  rw [List.map_map]
  refine List.map_congr_left fun field _ => ?_
  rw [Function.comp_apply, String.toList_append, String.toList_append, hcolon, List.append_assoc]
  rfl

/-! ### Without blanks -/

theorem compactItems_eq_map (items : List Json) : compactItems items = items.map compact := by
  induction items with
  | nil => rfl
  | cons item items ih => rw [compactItems, ih, List.map_cons]

theorem compactFields_eq_map (fields : List (String × Json)) :
    compactFields fields = fields.map fun (key, value) => quoted key ++ ":" ++ compact value := by
  induction fields with
  | nil => rfl
  | cons field fields ih => rw [compactFields, ih, List.map_cons]

theorem bracketed_joined (items : List String) :
    Bracketed opening closing (items.map String.toList)
      (String.singleton opening ++ ",".intercalate items ++ String.singleton closing).toList := by
  have h := bracketed_intercalate opening closing (items.map String.toList) Reader.isGap_nil
    Reader.isGap_nil
  simpa [String.toList_intercalate] using h

theorem isLayout_compact : IsLayout fun _ value => value.compact.toList where
  text _ _ := rfl
  bool _ _ := rfl
  list _ items := by
    have h := bracketed_joined '[' ']' (compactItems items)
    rw [compactItems_eq_map, List.map_map, ← compactItems_eq_map] at h
    exact h
  object _ fields := by
    refine ⟨[], Reader.isGap_nil, ?_⟩
    have h := bracketed_joined '\x7b' '\x7d' (compactFields fields)
    rw [compactFields_eq_map, toList_entries rfl, ← compactFields_eq_map] at h
    exact h

/-! ### With line breaks -/

theorem prettyItems_eq_map (depth : Nat) (items : List Json) :
    prettyItems depth items = items.map (prettyAt depth) := by
  induction items with
  | nil => rfl
  | cons item items ih => rw [prettyItems, ih, List.map_cons]

theorem prettyFields_eq_map (depth : Nat) (fields : List (String × Json)) :
    prettyFields depth fields =
      fields.map fun (key, value) => quoted key ++ ": " ++ prettyAt depth value := by
  induction fields with
  | nil => rfl
  | cons field fields ih => rw [prettyFields, ih, List.map_cons]

theorem isGap_lineStart (depth : Nat) : IsGap (lineStart depth).toList := by
  have hlineStart : (lineStart depth).toList = '\n' :: List.replicate (2 * depth) ' ' := by
    simp [lineStart]
  rw [hlineStart]
  refine List.forall_mem_cons.2 ⟨rfl, fun c hc => ?_⟩
  rw [List.eq_of_mem_replicate hc]
  rfl

theorem bracketed_block (depth : Nat) (items : List String) :
    Bracketed opening closing (items.map String.toList)
      (block (String.singleton opening) (String.singleton closing) depth items).toList := by
  -- without items the brackets stand side by side
  cases items with
  | nil => simpa [block] using bracketed_empty opening closing
  | cons item items =>
    have h := bracketed_intercalate opening closing ((item :: items).map String.toList)
      (isGap_lineStart (depth + 1)) (isGap_lineStart depth)
    simpa [block, String.toList_intercalate] using h

theorem isLayout_pretty : IsLayout fun depth value => (value.prettyAt depth).toList where
  text _ _ := rfl
  bool _ _ := rfl
  list depth items := by
    have h := bracketed_block '[' ']' depth (prettyItems (depth + 1) items)
    rw [prettyItems_eq_map, List.map_map, ← prettyItems_eq_map] at h
    exact h
  object depth fields := by
    refine ⟨[' '], List.forall_mem_singleton.2 rfl, ?_⟩
    have h := bracketed_block '\x7b' '\x7d' depth (prettyFields (depth + 1) fields)
    rw [prettyFields_eq_map, toList_entries rfl, ← prettyFields_eq_map] at h
    exact h

/-! ### What is read -/

section Reading

variable {α : Type} {r : Reader α} {encode : α → Json} {write : Nat → Json → List Char}
  (hw : IsLayout write)

include hw

theorem IsLayout.accepts_text (depth : Nat) (s : String) :
    Reader.text.Accepts (write depth (.text s)) s :=
  hw.text depth s ▸ Reader.accepts_text s

theorem IsLayout.accepts_bool (depth : Nat) (b : Bool) :
    Reader.bool.Accepts (write depth (.bool b)) b :=
  hw.bool depth b ▸ Reader.accepts_bool b

theorem IsLayout.accepts_list (depth : Nat)
    (h : ∀ a, r.Accepts (write (depth + 1) (encode a)) a) (as : List α) :
    r.list.Accepts (write depth (.list (as.map encode))) as := by
  refine Reader.accepts_list ?_ (hw.list depth _)
  rw [List.map_map, List.forall₂_map_left_iff, List.forall₂_same]
  exact fun a _ => h a

end Reading

end Json
end CallChain
