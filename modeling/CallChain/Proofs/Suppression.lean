import CallChain.Diagnostic
import CallChain.Proofs.Lists

/-!
# Which diagnostics are shown

Of the diagnostics that start at one place of one source, those of the highest kind are shown. The
comparison of all pairs skips what has a mark already, so a diagnostic may be passed over by one
that would hide it. It gets its mark all the same: one that nothing hides never has a mark, and at
every place such a one hides all lesser ones (`exists_foremost`).

* `getD_marks_iff`: what is marked is what is hidden.
* `filtered_eq_filter`: what remains, in the order of the reports.
* `filtered_exact`: what follows for reports in any order.
-/

namespace CallChain

/-! ### Hiding -/

namespace Diagnostic

/-- A diagnostic that starts at the same place, and whose kind has a higher priority. -/
def Hides (e d : Diagnostic) : Prop :=
  e.source = d.source ∧ e.span.start = d.span.start ∧ e.kind.rank < d.kind.rank

instance (e d : Diagnostic) : Decidable (e.Hides d) := inferInstanceAs (Decidable (_ ∧ _ ∧ _))

/-- Warnings are of the last kind. -/
theorem isError_of_rank_le {e d : Diagnostic} (h : e.kind.rank ≤ d.kind.rank)
    (hd : d.isError = true) : e.isError = true := by
  unfold isError severity at hd ⊢
  revert h hd
  cases e.kind <;> cases d.kind <;> decide

end Diagnostic

namespace Diagnostics

variable {ds ds' : Diagnostics} {a b d e : Diagnostic} {i j k : Nat} {marks : Array Bool}

theorem suppresses_iff : suppresses a b = true ↔ a.Hides b := by
  simp [suppresses, DiagnosticKind.suppresses, Diagnostic.Hides, and_assoc]

/-- At the place of a diagnostic there is one that nothing hides and that hides all lesser ones. -/
theorem exists_foremost (hd : d ∈ ds) : ∃ e ∈ ds, e.source = d.source ∧
    e.span.start = d.span.start ∧ e.kind.rank ≤ d.kind.rank ∧ ∀ x ∈ ds, ¬ x.Hides e := by
  induction hrank : d.kind.rank using Nat.strongRecOn generalizing d with
  | ind rank ih =>
    by_cases hhidden : ∃ x ∈ ds, x.Hides d
    -- what hides it has a lower rank, and the same place
    · obtain ⟨x, hx, hsource, hstart, hlt⟩ := hhidden
      obtain ⟨e, he, hsource', hstart', hle, hfree⟩ := ih _ (hrank ▸ hlt) hx rfl
      refine ⟨e, he, hsource'.trans hsource, hstart'.trans hstart, ?_, hfree⟩
      exact Nat.le_trans hle (hrank ▸ Nat.le_of_lt hlt)
    · exact ⟨d, hd, rfl, rfl, Nat.le_of_eq hrank, fun x hx hhides => hhidden ⟨x, hx, hhides⟩⟩

/-- What is hidden at all is hidden by one that nothing hides. -/
theorem exists_foremost_of_hides (he : e ∈ ds) (h : e.Hides d) :
    ∃ x ∈ ds, x.Hides d ∧ ∀ y ∈ ds, ¬ y.Hides x := by
  obtain ⟨x, hx, hsource, hstart, hle, hfree⟩ := exists_foremost he
  exact ⟨x, hx, ⟨hsource.trans h.1, hstart.trans h.2.1, Nat.lt_of_le_of_lt hle h.2.2⟩, hfree⟩

/-! ### Marks -/

/-- Has the diagnostic at a place got its mark? -/
def IsMarked (marks : Array Bool) (j : Nat) : Prop := marks.getD j false = true

theorem isMarked_set_iff (hj : j < marks.size) :
    IsMarked (marks.setIfInBounds j true) k ↔ j = k ∨ IsMarked marks k := by
  rw [IsMarked, IsMarked, Array.getD_eq_getD_getElem?, Array.getD_eq_getD_getElem?,
    Array.getElem?_setIfInBounds]
  by_cases hjk : j = k
  · rw [if_pos hjk, if_pos hj]
    exact iff_of_true rfl (.inl hjk)
  · rw [if_neg hjk]
    exact (or_iff_right hjk).symm

/-- There is a mark for each diagnostic, and those that are set are of diagnostics that others
hide. -/
structure Justified (ds : Diagnostics) (marks : Array Bool) : Prop where
  size_eq : marks.size = ds.length
  hidden : ∀ j, IsMarked marks j → ∃ d, ds[j]? = some d ∧ ∃ e ∈ ds, e.Hides d

theorem Justified.not_isMarked (h : Justified ds marks) (ha : ds[i]? = some a)
    (hfree : ∀ x ∈ ds, ¬ x.Hides a) : ¬ IsMarked marks i := by
  intro hmarked
  obtain ⟨d, hd, x, hx, hhides⟩ := h.hidden i hmarked
  rw [ha, Option.some.injEq] at hd
  exact hfree x hx (hd ▸ hhides)

theorem Justified.lt_size (h : Justified ds marks) (hb : ds[j]? = some b) : j < marks.size :=
  h.size_eq ▸ (List.getElem?_eq_some_iff.1 hb).1

/-- Further marks have been set, where they had to be. -/
structure Extends (ds : Diagnostics) (marks marks' : Array Bool) : Prop where
  justified : Justified ds marks'
  kept : ∀ k, IsMarked marks k → IsMarked marks' k

/-- Comparing a pair sets at most the mark of the second one. -/
theorem extends_mark (h : Justified ds marks) (ha : a ∈ ds) (hb : ds[j]? = some b) :
    Extends ds marks (mark a i marks (b, j)) := by
  unfold mark
  dsimp only
  split
  · exact ⟨h, fun _ => id⟩
  · split
    next hsuppresses =>
      have hj := h.lt_size hb
      refine ⟨⟨Array.size_setIfInBounds.trans h.size_eq, fun k hk => ?_⟩,
        fun k hk => (isMarked_set_iff hj).2 (.inr hk)⟩
      rcases (isMarked_set_iff hj).1 hk with rfl | hk
      · exact ⟨b, hb, a, ha, suppresses_iff.1 hsuppresses⟩
      · exact h.hidden k hk
    next => exact ⟨h, fun _ => id⟩

/-- A diagnostic without a mark marks what it hides. -/
theorem isMarked_mark (h : Justified ds marks) (ha : a ∈ ds) (hb : ds[j]? = some b)
    (hi : ¬ IsMarked marks i) (hhides : a.Hides b) (hne : i ≠ j) :
    IsMarked (mark a i marks (b, j)) j := by
  by_cases hj : IsMarked marks j
  · exact (extends_mark h ha hb).kept j hj
  · have hskip : ¬ (decide (i = j) || marks.getD i false || marks.getD j false) = true := by
      rw [Bool.or_eq_true, Bool.or_eq_true, decide_eq_true_eq, not_or, not_or]
      exact ⟨⟨hne, hi⟩, hj⟩
    show IsMarked (if _ then _ else if _ then _ else _) j
    rw [if_neg hskip, if_pos (suppresses_iff.2 hhides), isMarked_set_iff (h.lt_size hb)]
    exact .inl rfl

/-! ### All pairs -/

section Runs

variable {α : Type} {step : Array Bool → α → Array Bool} {xs : List α}
  (hstep : ∀ marks, Justified ds marks → ∀ x ∈ xs, Extends ds marks (step marks x))

include hstep

theorem extends_foldl (h : Justified ds marks) : Extends ds marks (xs.foldl step marks) :=
  List.foldlRecOn xs step ⟨h, fun _ => id⟩ fun m hm x hx =>
    have hnext := hstep m hm.justified x hx
    ⟨hnext.justified, fun k hk => hnext.kept k (hm.kept k hk)⟩

/-- A mark that one step of a run sets is set behind the run. -/
theorem isMarked_foldl {x : α} (hx : x ∈ xs)
    (hset : ∀ marks, Justified ds marks → IsMarked (step marks x) j) (h : Justified ds marks) :
    IsMarked (xs.foldl step marks) j := by
  obtain ⟨front, rest, rfl⟩ := List.append_of_mem hx
  rw [List.foldl_append, List.foldl_cons]
  have hfront := extends_foldl (fun m hm y hy => hstep m hm y (List.mem_append_left _ hy)) h
  have hhere := hstep _ hfront.justified x hx
  have hrest : ∀ m, Justified ds m → ∀ y ∈ rest, Extends ds m (step m y) := fun m hm y hy =>
    hstep m hm y (List.mem_append_right _ (List.mem_cons_of_mem _ hy))
  -- the steps behind it keep what it has set
  exact (extends_foldl hrest hhere.justified).kept j (hset _ hfront.justified)

end Runs

theorem extends_row (h : Justified ds marks) (ha : a ∈ ds) :
    Extends ds marks (ds.zipIdx.foldl (mark a i) marks) :=
  extends_foldl (fun _ h _ hb => extends_mark h ha (List.mem_zipIdx_iff_getElem?.1 hb)) h

/-- A diagnostic that nothing hides marks all that it hides. -/
theorem isMarked_row (h : Justified ds marks) (ha : ds[i]? = some a) (hb : ds[j]? = some b)
    (hfree : ∀ x ∈ ds, ¬ x.Hides a) (hhides : a.Hides b) :
    IsMarked (ds.zipIdx.foldl (mark a i) marks) j := by
  have hne : i ≠ j := by
    rintro rfl
    rw [ha, Option.some.injEq] at hb
    exact hfree a (List.mem_of_getElem? ha) (hb ▸ hhides)
  have hmem := List.mem_of_getElem? ha
  have hentry : (b, j) ∈ ds.zipIdx := List.mem_zipIdx_iff_getElem?.2 hb
  refine isMarked_foldl
    (fun _ h _ hc => extends_mark h hmem (List.mem_zipIdx_iff_getElem?.1 hc)) hentry
    (fun m hm => ?_) h
  exact isMarked_mark hm hmem hb (hm.not_isMarked ha hfree) hhides hne

theorem justified_replicate : Justified ds (Array.replicate ds.length false) := by
  refine ⟨Array.size_replicate, fun j hj => ?_⟩
  rw [IsMarked, Array.getD_eq_getD_getElem?, Array.getElem?_replicate] at hj
  split at hj <;> cases hj

theorem justified_marks : Justified ds (Diagnostics.marks ds) :=
  (extends_foldl (fun _ h _ ha => extends_row h (List.fst_mem_of_mem_zipIdx ha))
    justified_replicate).justified

/-- What is marked is what is hidden. -/
theorem isMarked_marks_iff (hd : ds[j]? = some d) :
    IsMarked (Diagnostics.marks ds) j ↔ ∃ e ∈ ds, e.Hides d := by
  constructor
  · intro hmarked
    obtain ⟨d', hd', hhidden⟩ := justified_marks.hidden j hmarked
    rw [hd, Option.some.injEq] at hd'
    exact hd' ▸ hhidden
  · rintro ⟨e, he, hhides⟩
    -- the one that hides it may have a mark itself, but not the foremost one
    obtain ⟨x, hx, hhides, hfree⟩ := exists_foremost_of_hides he hhides
    obtain ⟨i, hi⟩ := List.mem_iff_getElem?.1 hx
    have hentry : (x, i) ∈ ds.zipIdx := List.mem_zipIdx_iff_getElem?.2 hi
    exact isMarked_foldl (fun _ h _ ha => extends_row h (List.fst_mem_of_mem_zipIdx ha)) hentry
      (fun _ h => isMarked_row h hi hd hfree hhides) justified_replicate

theorem toList_marks :
    (Diagnostics.marks ds).toList = ds.map fun d => decide (∃ e ∈ ds, e.Hides d) := by
  have hsize : (Diagnostics.marks ds).size = ds.length := justified_marks.size_eq
  refine List.ext_getElem (by rw [Array.length_toList, List.length_map, hsize]) fun j hj hj' => ?_
  rw [List.length_map] at hj'
  rw [List.getElem_map, Bool.eq_iff_iff, decide_eq_true_eq,
    ← isMarked_marks_iff (List.getElem?_eq_getElem hj'), IsMarked, Array.getElem_toList,
    Array.getD_eq_getD_getElem?, Array.getElem?_eq_getElem (hsize ▸ hj')]
  rfl

/-! ### What remains -/

/-- What nothing hides remains, in the order of the reports. -/
theorem filtered_eq_filter (ds : Diagnostics) :
    filtered ds = ds.filter fun d => ∀ e ∈ ds, ¬ e.Hides d := by
  have hzip : ∀ (p : Diagnostic → Bool) (xs : Diagnostics), (xs.zip (xs.map p)).filterMap
      (fun entry => if entry.2 then none else some entry.1) = xs.filter (!p ·) := by
    intro p xs
    induction xs with
    | nil => rfl
    | cons d xs ih =>
      rw [List.map_cons, List.zip_cons_cons, List.filterMap_cons, List.filter_cons, ih]
      cases p d <;> rfl
  rw [filtered, toList_marks]
  refine (hzip _ ds).trans (List.filter_congr fun d _ => ?_)
  rw [← decide_not]
  exact decide_eq_decide.2 (by simp)

theorem mem_filtered_iff : d ∈ filtered ds ↔ d ∈ ds ∧ ∀ e ∈ ds, ¬ e.Hides d := by
  rw [filtered_eq_filter, List.mem_filter, decide_eq_true_eq]

theorem filtered_filtered (ds : Diagnostics) : filtered (filtered ds) = filtered ds := by
  rw [filtered_eq_filter (filtered ds), List.filter_eq_self]
  intro d hd
  refine decide_eq_true fun e he => ?_
  exact (mem_filtered_iff.1 hd).2 e (mem_filtered_iff.1 he).1

theorem filtered_perm (h : ds.Perm ds') : (filtered ds).Perm (filtered ds') := by
  have hsame : (fun d : Diagnostic => decide (∀ e ∈ ds, ¬ e.Hides d)) =
      fun d => decide (∀ e ∈ ds', ¬ e.Hides d) := by
    funext d
    exact decide_eq_decide.2 (forall_congr' fun e => imp_congr_left h.mem_iff)
  rw [filtered_eq_filter, filtered_eq_filter, hsame]
  exact h.filter _

theorem exists_mem_filtered (hd : d ∈ ds) :
    ∃ e ∈ filtered ds, e.kind.rank ≤ d.kind.rank := by
  obtain ⟨e, he, -, -, hle, hfree⟩ := exists_foremost hd
  exact ⟨e, mem_filtered_iff.2 ⟨he, hfree⟩, hle⟩

theorem filtered_eq_nil_iff : filtered ds = [] ↔ ds = [] := by
  constructor
  · intro h
    refine List.eq_nil_iff_forall_not_mem.2 fun d hd => ?_
    obtain ⟨e, he, -⟩ := exists_mem_filtered hd
    rw [h] at he
    cases he
  · rintro rfl
    rfl

theorem hasErrors_filtered (ds : Diagnostics) : hasErrors (filtered ds) = hasErrors ds := by
  rw [Bool.eq_iff_iff, hasErrors, hasErrors, List.any_eq_true, List.any_eq_true]
  constructor
  · rintro ⟨d, hd, herror⟩
    exact ⟨d, (mem_filtered_iff.1 hd).1, herror⟩
  · rintro ⟨d, hd, herror⟩
    obtain ⟨e, he, hle⟩ := exists_mem_filtered hd
    exact ⟨e, he, Diagnostic.isError_of_rank_le hle herror⟩

/-- A diagnostic is shown if and only if no other one at its place has a kind of higher priority,
and what is shown stands in the order of the reports. Filtering again changes nothing, the order of
the reports does not matter to what is shown, and something is shown, or an error, whenever there is
something, or an error. -/
theorem filtered_exact :
    (∀ ds : Diagnostics, filtered ds = ds.filter fun d => ∀ e ∈ ds, ¬ e.Hides d) ∧
    (∀ ds : Diagnostics, filtered (filtered ds) = filtered ds) ∧
    (∀ ds ds' : Diagnostics, ds.Perm ds' → (filtered ds).Perm (filtered ds')) ∧
    ∀ ds : Diagnostics, (filtered ds = [] ↔ ds = []) ∧ hasErrors (filtered ds) = hasErrors ds :=
  ⟨filtered_eq_filter, filtered_filtered, fun _ _ => filtered_perm,
    fun ds => ⟨filtered_eq_nil_iff, hasErrors_filtered ds⟩⟩

/-- Rising priorities at one place, the highest of them twice, and the same place elsewhere. -/
def rising : Diagnostics :=
  [⟨.unexpectedToken, ⟨0⟩, ⟨2, 3⟩, some ")", []⟩, ⟨.expectedExpression, ⟨0⟩, ⟨2, 2⟩, none, []⟩,
    ⟨.unclosedGroup, ⟨0⟩, ⟨2, 4⟩, none, []⟩, ⟨.unusedSubExpression, ⟨1⟩, ⟨2, 5⟩, some "x", []⟩,
    ⟨.unclosedGroup, ⟨0⟩, ⟨2, 6⟩, none, []⟩]

theorem filtered_exact_rising : rising.Perm rising.reverse ∧
    (filtered rising).map (fun d => (d.source.index, d.span.stop)) = [(0, 4), (1, 5), (0, 6)] ∧
    (filtered rising).Perm (filtered rising.reverse) := by
  have hperm : rising.Perm rising.reverse := (List.reverse_perm rising).symm
  exact ⟨hperm, by decide +kernel, filtered_exact.2.2.1 _ _ hperm⟩

end Diagnostics
end CallChain
