import CallChain.Sorting
import Mathlib.Data.List.Forall2
import Mathlib.Data.List.Nodup
import Mathlib.Logic.Equiv.Defs

/-!
# Lists

Lists of pairs as maps, places in a list, joined lists, sorted lists, lists that grow, and runs of a
step over a list that may fail.
-/

namespace CallChain

variable {α β σ ε : Type}

/-! ### Lookup -/

section Lookup

variable [DecidableEq α] {entries entries' : List (α × β)} {key : α} {value : β}

theorem lookup_eq_some_iff_mem (hnodup : (entries.map (·.1)).Nodup) :
    entries.lookup key = some value ↔ (key, value) ∈ entries := by
  induction entries with
  | nil => simp
  | cons entry entries ih =>
    rw [List.map_cons, List.nodup_cons] at hnodup
    rw [List.lookup_cons, List.mem_cons]
    by_cases h : key = entry.1
    · -- The key of the first entry occurs in no other.
      have hnot : (key, value) ∉ entries := fun hmem =>
        hnodup.1 (h ▸ List.mem_map_of_mem (f := fun e : α × β => e.1) hmem)
      rw [beq_iff_eq.2 h, Option.some.injEq, or_iff_left hnot, h, Prod.ext_iff, eq_comm]
      simp
    · have hne : (key, value) ≠ entry := fun heq => h (congrArg Prod.fst heq)
      rw [beq_eq_false_iff_ne.2 h, or_iff_right hne]
      exact ih hnodup.2

/-- The order of entries does not matter to what is found. -/
theorem lookup_perm (h : entries.Perm entries') (hnodup : (entries.map (·.1)).Nodup) :
    entries.lookup key = entries'.lookup key := by
  have hnodup' : (entries'.map (·.1)).Nodup := (h.map _).nodup_iff.1 hnodup
  ext value
  rw [lookup_eq_some_iff_mem hnodup, lookup_eq_some_iff_mem hnodup', h.mem_iff]

end Lookup

/-! ### Places and repetitions -/

theorem idxOf?_eq_some [BEq α] [LawfulBEq α] {xs : List α} {x : α} (h : x ∈ xs) :
    xs.idxOf? x = some (xs.idxOf x) := by
  induction xs with
  | nil => cases h
  | cons y xs ih =>
    rw [List.idxOf?_cons, List.idxOf_cons]
    by_cases hy : y = x
    · simp [hy]
    · have hmem : x ∈ xs := by
        rcases List.mem_cons.1 h with rfl | hmem
        · exact absurd rfl hy
        · exact hmem
      simp [beq_eq_false_iff_ne.2 hy, ih hmem]

theorem idxOf_append_cons [BEq α] [LawfulBEq α] {xs ys : List α} {x : α} (h : x ∉ xs) :
    (xs ++ x :: ys).idxOf x = xs.length := by
  rw [List.idxOf_append_of_notMem h, List.idxOf_cons_self, Nat.add_zero]

/-- A renaming that keeps an element apart from the others keeps its place. -/
theorem idxOf_map [BEq α] [LawfulBEq α] [BEq β] [LawfulBEq β] {f : α → β} {xs : List α} {x : α}
    (h : ∀ y ∈ xs, f y = f x → y = x) : (xs.map f).idxOf (f x) = xs.idxOf x := by
  induction xs with
  | nil => rfl
  | cons y xs ih =>
    rw [List.forall_mem_cons] at h
    rw [List.map_cons, List.idxOf_cons, List.idxOf_cons, ih h.2]
    by_cases hy : y = x
    · simp [hy]
    · rw [beq_eq_false_iff_ne.2 hy, beq_eq_false_iff_ne.2 (mt h.1 hy)]

theorem nodup_eraseDups [BEq α] [LawfulBEq α] : ∀ xs : List α, xs.eraseDups.Nodup
  | [] => List.nodup_nil
  | x :: xs => by
    have hlt : (xs.filter fun y => !y == x).length < xs.length + 1 :=
      Nat.lt_succ_of_le (List.length_filter_le _ _)
    rw [List.eraseDups_cons, List.nodup_cons]
    refine ⟨?_, nodup_eraseDups _⟩
    simp [List.mem_eraseDups]
termination_by xs => xs.length

/-- The element of `ys` at the place of an element of `xs`; other elements are left alone. -/
def elementAt [BEq α] (xs ys : List α) (x : α) : α := ys.getD (xs.idxOf x) x

section Matching

variable [BEq α] [LawfulBEq α] {xs ys : List α} {x : α}

theorem elementAt_getElem (hxs : xs.Nodup) (hlength : xs.length = ys.length) {i : Nat}
    (hi : i < xs.length) : elementAt xs ys xs[i] = ys[i] := by
  rw [elementAt, hxs.idxOf_getElem, List.getD_eq_getElem?_getD,
    List.getElem?_eq_getElem (hlength ▸ hi)]
  rfl

theorem elementAt_of_not_mem (hlength : xs.length = ys.length) (hx : x ∉ xs) :
    elementAt xs ys x = x := by
  have hidx : xs.idxOf x = xs.length := by
    rcases Nat.lt_or_ge (xs.idxOf x) xs.length with hlt | hge
    · exact absurd (List.idxOf_lt_length_iff.1 hlt) hx
    · exact Nat.le_antisymm List.idxOf_le_length hge
  rw [elementAt, hidx, List.getD_eq_getElem?_getD, List.getElem?_eq_none (by omega)]
  rfl

theorem elementAt_elementAt (hxs : xs.Nodup) (hys : ys.Nodup) (h : xs.Perm ys) (x : α) :
    elementAt ys xs (elementAt xs ys x) = x := by
  have hlength := h.length_eq
  by_cases hx : x ∈ xs
  · obtain ⟨i, hi, rfl⟩ := List.mem_iff_getElem.1 hx
    rw [elementAt_getElem hxs hlength hi, elementAt_getElem hys hlength.symm]
  · rw [elementAt_of_not_mem hlength hx]
    exact elementAt_of_not_mem hlength.symm fun hy => hx (h.mem_iff.2 hy)

/-- The bijection between two arrangements of the same elements. -/
def matching (xs ys : List α) (hxs : xs.Nodup) (h : xs.Perm ys) : α ≃ α where
  toFun := elementAt xs ys
  invFun := elementAt ys xs
  left_inv := elementAt_elementAt hxs (h.nodup_iff.1 hxs) h
  right_inv := elementAt_elementAt (h.nodup_iff.1 hxs) hxs h.symm

theorem map_matching (hxs : xs.Nodup) (h : xs.Perm ys) : xs.map (matching xs ys hxs h) = ys := by
  refine List.ext_getElem ((List.length_map _).trans h.length_eq) fun i hi hi' => ?_
  rw [List.getElem_map]
  exact elementAt_getElem hxs h.length_eq _

end Matching

/-! ### Joined lists -/

/-- Pieces, each but the first behind a separator. -/
theorem intercalate_cons_eq_flatMap (separator first : List α) (rest : List (List α)) :
    separator.intercalate (first :: rest) =
      first ++ rest.flatMap fun piece => separator ++ piece := by
  induction rest generalizing first with
  | nil => rw [List.intercalate_singleton, List.flatMap_nil, List.append_nil]
  | cons second rest ih =>
    rw [List.intercalate_cons_cons, ih, List.flatMap_cons, List.append_assoc, List.append_assoc]

/-! ### Sorted lists -/

section Congruence

variable {le le' : α → α → Bool}

theorem insertBy_congr {x : α} {xs : List α} (h : ∀ y ∈ xs, le x y = le' x y) :
    insertBy le x xs = insertBy le' x xs := by
  induction xs with
  | nil => rfl
  | cons y ys ih =>
    rw [List.forall_mem_cons] at h
    rw [insertBy, insertBy, h.1, ih h.2]

/-- Only how its elements compare matters to how a list is sorted. -/
theorem sortBy_congr {xs : List α} (h : ∀ x ∈ xs, ∀ y ∈ xs, le x y = le' x y) :
    sortBy le xs = sortBy le' xs := by
  induction xs with
  | nil => rfl
  | cons x xs ih =>
    have hrest : sortBy le xs = sortBy le' xs :=
      ih fun y hy z hz => h y (List.mem_cons_of_mem x hy) z (List.mem_cons_of_mem x hz)
    rw [sortBy, sortBy, hrest]
    refine insertBy_congr fun y hy => h x List.mem_cons_self y (List.mem_cons_of_mem x ?_)
    exact (mem_sortBy le').1 hy

end Congruence


section Sorting

variable {le : α → α → Bool} (htrans : ∀ x y z, le x y = true → le y z = true → le x z = true)
  (htotal : ∀ x y, le x y = true ∨ le y x = true)

include htrans htotal

theorem pairwise_insertBy {x : α} {xs : List α} (h : xs.Pairwise (le · · = true)) :
    (insertBy le x xs).Pairwise (le · · = true) := by
  induction xs with
  | nil => exact List.pairwise_singleton _ x
  | cons y ys ih =>
    have hys := List.pairwise_cons.1 h
    unfold insertBy
    split
    next hxy =>
      refine List.pairwise_cons.2 ⟨List.forall_mem_cons.2 ⟨hxy, fun z hz => ?_⟩, h⟩
      exact htrans x y z hxy (hys.1 z hz)
    next hxy =>
      refine List.pairwise_cons.2 ⟨fun z hz => ?_, ih hys.2⟩
      rcases List.mem_cons.1 ((insertBy_perm le x ys).mem_iff.1 hz) with rfl | hz
      · exact (htotal z y).resolve_left hxy
      · exact hys.1 z hz

theorem pairwise_sortBy (xs : List α) : (sortBy le xs).Pairwise (le · · = true) := by
  induction xs with
  | nil => exact .nil
  | cons x xs ih => exact pairwise_insertBy htrans htotal ih

/-- Where no two elements are alike, the order of a list does not matter to what it is sorted to. -/
theorem sortBy_eq_of_perm {xs ys : List α}
    (hantisymm : ∀ x ∈ ys, ∀ y ∈ ys, le x y = true → le y x = true → x = y) (h : xs.Perm ys)
    (hsorted : ys.Pairwise (le · · = true)) : sortBy le xs = ys := by
  have hperm : (sortBy le xs).Perm ys := (sortBy_perm le xs).trans h
  refine hperm.eq_of_pairwise ?_ (pairwise_sortBy htrans htotal xs) hsorted
  exact fun x y hx hy => hantisymm x (hperm.mem_iff.1 hx) y hy

end Sorting

/-! ### Changes at one place -/

theorem modify_append_cons {i : Nat} {f : α → α} {xs ys : List α} {y : α} (h : xs.length = i) :
    (xs ++ y :: ys).modify i f = xs ++ f y :: ys := by
  subst h
  induction xs with
  | nil => rfl
  | cons x xs ih => exact congrArg (x :: ·) ih

/-! ### Lists that grow -/

/-- The second list is the first one and further elements with some property. -/
def Grown (P : α → Prop) (xs ys : List α) : Prop := ∃ new, ys = xs ++ new ∧ ∀ x ∈ new, P x

namespace Grown

variable {P : α → Prop} {xs ys zs : List α}

theorem refl (xs : List α) : Grown P xs xs :=
  ⟨[], (List.append_nil xs).symm, fun _ hx => (List.not_mem_nil hx).elim⟩

theorem append (h : ∀ x ∈ ys, P x) : Grown P xs (xs ++ ys) := ⟨ys, rfl, h⟩

theorem trans (h : Grown P xs ys) (h' : Grown P ys zs) : Grown P xs zs := by
  obtain ⟨new, rfl, hnew⟩ := h
  obtain ⟨new', rfl, hnew'⟩ := h'
  refine ⟨new ++ new', List.append_assoc xs new new', ?_⟩
  exact List.forall_mem_append.2 ⟨hnew, hnew'⟩

theorem isPrefix (h : Grown P xs ys) : xs <+: ys := by
  obtain ⟨new, rfl, -⟩ := h
  exact List.prefix_append xs new

theorem mono {Q : α → Prop} (h : Grown P xs ys) (hmono : ∀ x, P x → Q x) : Grown Q xs ys := by
  obtain ⟨new, rfl, hnew⟩ := h
  exact ⟨new, rfl, fun x hx => hmono x (hnew x hx)⟩

/-- What has grown out of nothing has new elements only. -/
theorem of_nil (h : Grown P [] ys) : ∀ x ∈ ys, P x := by
  obtain ⟨new, rfl, hnew⟩ := h
  exact hnew

end Grown

/-! ### Runs -/

theorem ok_bind (a : α) (f : α → Except ε β) : (.ok a >>= f) = f a := rfl

theorem bind_eq_ok {m : Except ε α} {f : α → Except ε β} {b : β} :
    m >>= f = .ok b ↔ ∃ a, m = .ok a ∧ f a = .ok b := by
  cases m with
  | error e => exact iff_of_false (fun h => nomatch h) fun ⟨_, h, _⟩ => nomatch h
  | ok a =>
    constructor
    · exact fun h => ⟨a, rfl, h⟩
    · rintro ⟨_, h, hf⟩
      cases h
      exact hf

theorem mapError_eq_ok {ε' : Type} {m : Except ε α} {f : ε → ε'} {a : α} :
    m.mapError f = .ok a ↔ m = .ok a := by
  cases m with
  | error e => exact iff_of_false (fun h => nomatch h) fun h => nomatch h
  | ok b => exact ⟨fun h => congrArg _ (Except.ok.inj h), fun h => congrArg _ (Except.ok.inj h)⟩

/-- What is known of the result of a run that succeeds. -/
theorem exists_of_toOption_map {m : Except ε α} {f : α → β} {b : β}
    (h : m.toOption.map f = some b) : ∃ a, m = .ok a ∧ f a = b := by
  cases m with
  | error e => cases h
  | ok a => exact ⟨a, rfl, Option.some.inj h⟩

theorem mapM_eq_ok {f : α → Except ε β} {g : α → β} {xs : List α}
    (h : ∀ x ∈ xs, f x = .ok (g x)) : xs.mapM f = .ok (xs.map g) := by
  induction xs with
  | nil => rfl
  | cons x xs ih =>
    rw [List.forall_mem_cons] at h
    rw [List.mapM_cons, h.1, ih h.2]
    rfl

theorem filterM_eq_ok {f : α → Except ε Bool} {g : α → Bool} {xs : List α}
    (h : ∀ x ∈ xs, f x = .ok (g x)) : xs.filterM f = .ok (xs.filter g) := by
  have haux (acc : List α) : xs.filterAuxM f acc = .ok ((xs.filter g).reverse ++ acc) := by
    induction xs generalizing acc with
    | nil => rfl
    | cons x xs ih =>
      rw [List.forall_mem_cons] at h
      rw [List.filterAuxM, h.1]
      refine (ih h.2 _).trans ?_
      cases hg : g x <;> simp [hg]
  rw [List.filterM, haux]
  exact congrArg Except.ok (by simp)

theorem exists_mapM_eq_ok {f : α → Except ε β} {xs : List α} (h : ∀ x ∈ xs, ∃ y, f x = .ok y) :
    ∃ ys, xs.mapM f = .ok ys := by
  induction xs with
  | nil => exact ⟨[], rfl⟩
  | cons x xs ih =>
    rw [List.forall_mem_cons] at h
    obtain ⟨y, hy⟩ := h.1
    obtain ⟨ys, hys⟩ := ih h.2
    refine ⟨y :: ys, ?_⟩
    rw [List.mapM_cons, hy, hys]
    rfl

/-- The results of a run over a list are those of its elements, one by one. -/
theorem forall₂_of_mapM_eq_ok {f : α → Except ε β} {xs : List α} {ys : List β}
    (h : xs.mapM f = .ok ys) : List.Forall₂ (fun x y => f x = .ok y) xs ys := by
  induction xs generalizing ys with
  | nil =>
    cases h
    exact .nil
  | cons x xs ih =>
    rw [List.mapM_cons] at h
    obtain ⟨y, hy, h⟩ := bind_eq_ok.1 h
    obtain ⟨ys', hys, h⟩ := bind_eq_ok.1 h
    cases h
    exact .cons hy (ih hys)

/-- The result for an element of the list. -/
theorem eq_ok_getD_idxOf [BEq α] [LawfulBEq α] {f : α → Except ε β} {xs : List α} {ys : List β}
    (h : xs.mapM f = .ok ys) {x : α} (hx : x ∈ xs) (d : β) :
    f x = .ok (ys.getD (xs.idxOf x) d) := by
  obtain ⟨hlength, hall⟩ := List.forall₂_iff_get.1 (forall₂_of_mapM_eq_ok h)
  have hlt := List.idxOf_lt_length_iff.2 hx
  have hx := hall (xs.idxOf x) hlt (hlength ▸ hlt)
  rw [List.get_eq_getElem, List.getElem_idxOf] at hx
  rw [hx, List.getD_eq_getElem?_getD, List.getElem?_eq_getElem (hlength ▸ hlt)]
  rfl

/-- Steps that do not notice a renaming. -/
theorem mapM_map_eq {f : α → Except ε β} {f' : σ → Except ε β} {g : α → σ} {xs : List α}
    (h : ∀ x ∈ xs, f' (g x) = f x) : (xs.map g).mapM f' = xs.mapM f := by
  induction xs with
  | nil => rfl
  | cons x xs ih =>
    rw [List.forall_mem_cons] at h
    rw [List.map_cons, List.mapM_cons, List.mapM_cons, h.1, ih h.2]

theorem mapM_congr {f f' : α → Except ε β} {xs : List α} (h : ∀ x ∈ xs, f' x = f x) :
    xs.mapM f' = xs.mapM f := by
  rw [← mapM_map_eq (g := id) h, List.map_id]

/-- What every step keeps is kept by a run of steps. -/
theorem foldlM_ok_induction {step : σ → α → Except ε σ} {P : σ → Prop} {xs : List α}
    {s s' : σ} (hstep : ∀ s x s', x ∈ xs → step s x = .ok s' → P s → P s') (hs : P s)
    (h : xs.foldlM step s = .ok s') : P s' := by
  induction xs generalizing s with
  | nil =>
    cases h
    exact hs
  | cons x xs ih =>
    rw [List.foldlM_cons] at h
    obtain ⟨s'', hx, hrest⟩ := bind_eq_ok.1 h
    refine ih ?_ (hstep s x s'' List.mem_cons_self hx hs) hrest
    exact fun s y s' hy => hstep s y s' (List.mem_cons_of_mem x hy)

/-- Steps that succeed where some property holds, and keep it, succeed one after the other. -/
theorem foldlM_eq_ok {step : σ → α → Except ε σ} {next : σ → α → σ} {P : σ → Prop} {xs : List α}
    {s : σ} (hstep : ∀ s x, x ∈ xs → P s → step s x = .ok (next s x) ∧ P (next s x)) (hs : P s) :
    xs.foldlM step s = .ok (xs.foldl next s) ∧ P (xs.foldl next s) := by
  induction xs generalizing s with
  | nil => exact ⟨rfl, hs⟩
  | cons x xs ih =>
    obtain ⟨hx, hkept⟩ := hstep s x List.mem_cons_self hs
    rw [List.foldlM_cons, hx]
    exact ih (fun s y hy => hstep s y (List.mem_cons_of_mem x hy)) hkept

/-- A run of steps that succeeds takes a step for each element, and goes on behind it. -/
theorem exists_step_of_foldlM {step : σ → α → Except ε σ} {xs : List α} {s s' : σ} {x : α}
    (h : xs.foldlM step s = .ok s') (hx : x ∈ xs) :
    ∃ (before after : σ) (later : List α), step before x = .ok after ∧
      later.foldlM step after = .ok s' := by
  induction xs generalizing s with
  | nil => cases hx
  | cons y xs ih =>
    rw [List.foldlM_cons] at h
    obtain ⟨t, hy, hrest⟩ := bind_eq_ok.1 h
    rcases List.mem_cons.1 hx with rfl | hx
    · exact ⟨s, t, xs, hy, hrest⟩
    · exact ih hrest hx

theorem foldlM_singleton (step : σ → α → Except ε σ) (s : σ) (x : α) :
    [x].foldlM step s = step s x := by
  rw [List.foldlM_cons]
  exact bind_pure _

/-- A loop over the numbers below a bound, by what it has made when it comes to each of them. -/
theorem foldlM_range_eq_ok {step : σ → Nat → Except ε σ} (made : Nat → σ) {count : Nat}
    (hstep : ∀ i < count, step (made i) i = .ok (made (i + 1))) :
    (List.range count).foldlM step (made 0) = .ok (made count) := by
  induction count with
  | zero => rfl
  | succ count ih =>
    rw [List.range_succ, List.foldlM_append, ih fun i hi => hstep i (Nat.lt_succ_of_lt hi),
      ok_bind, foldlM_singleton]
    exact hstep count (Nat.lt_succ_self count)

end CallChain
