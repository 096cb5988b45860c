import CallChain.Discovery
import Mathlib.Data.List.Perm.Subperm

/-!
# What a breadth-first search finds

A search within a finite stock of elements that no step leaves meets exactly what steps reach from
its seeds, as soon as its bound is the size of the stock.

* `mem_discover_iff`: the search is sound and complete.
* `discover_eq_of_le`: what it finds does not depend on its bound.
* `discover_map`: renaming what is searched renames what is found, in the same order.
-/

namespace CallChain

variable {α : Type} {β : Type}

/-- What steps reach from some seeds. -/
inductive Reached (step : α → List α) (seeds : List α) : α → Prop where
  | seed {x : α} (hx : x ∈ seeds) : Reached step seeds x
  | step {x y : α} (hx : Reached step seeds x) (hy : y ∈ step x) : Reached step seeds y

/-- A stock of elements that holds the seeds and that no step leaves. -/
structure Confined (step : α → List α) (seeds stock : List α) : Prop where
  seeds_mem : ∀ x ∈ seeds, x ∈ stock
  step_mem : ∀ x ∈ stock, ∀ y ∈ step x, y ∈ stock

theorem Confined.mem_of_reached {step : α → List α} {seeds stock : List α}
    (h : Confined step seeds stock) {x : α} (hx : Reached step seeds x) : x ∈ stock := by
  induction hx with
  | seed hx => exact h.seeds_mem _ hx
  | step _ hy ih => exact h.step_mem _ ih _ hy

variable [BEq α] [LawfulBEq α]

/-! ### New elements -/

/-- Only what has been seen matters, and not how often or in which order. -/
theorem fresh_congr {seen seen' xs : List α} (h : ∀ x, x ∈ seen ↔ x ∈ seen') :
    fresh seen xs = fresh seen' xs := by
  induction xs generalizing seen seen' with
  | nil => rfl
  | cons x xs ih =>
    have hcontains : seen.contains x = seen'.contains x := by
      rw [Bool.eq_iff_iff, List.contains_iff_mem, List.contains_iff_mem]
      exact h x
    have hcons (y : α) : y ∈ x :: seen ↔ y ∈ x :: seen' := by
      rw [List.mem_cons, List.mem_cons, h]
    rw [fresh, fresh, hcontains, ih h, ih hcons]

theorem fresh_append {seen xs ys : List α} :
    fresh seen (xs ++ ys) = fresh seen xs ++ fresh (seen ++ fresh seen xs) ys := by
  induction xs generalizing seen with
  | nil => rw [List.nil_append, fresh, List.nil_append, List.append_nil]
  | cons x xs ih =>
    rw [List.cons_append, fresh, fresh, ih, ih]
    split
    · rfl
    · refine congrArg (fun rest => x :: (fresh (x :: seen) xs ++ rest)) (fresh_congr fun y => ?_)
      simp only [List.mem_append, List.mem_cons]
      tauto

/-! ### Soundness -/

theorem reached_of_mem_explore {step : α → List α} {seeds : List α} {fuel : Nat}
    {done queue : List α} (h : ∀ x ∈ done ++ queue, Reached step seeds x) :
    ∀ x ∈ explore step fuel done queue, Reached step seeds x := by
  induction fuel generalizing done queue with
  | zero => exact h
  | succ fuel ih =>
    cases queue with
    | nil =>
      intro x hx
      exact h x (by simpa [explore] using hx)
    | cons x queue =>
      refine ih ?_
      intro y hy
      simp only [List.append_assoc, List.mem_append, List.mem_singleton, mem_fresh] at hy
      rcases hy with hy | rfl | hy | ⟨hy, -⟩
      · exact h y (by simp [hy])
      · exact h y (by simp)
      · exact h y (by simp [hy])
      · exact .step (h x (by simp)) hy

/-! ### Completeness -/

/-- A search within a stock: it has met nothing else and nothing twice, and the fuel covers the part
of the stock that has not been expanded. -/
structure Searching (stock : List α) (fuel : Nat) (done queue : List α) : Prop where
  met : ∀ x ∈ done ++ queue, x ∈ stock
  nodup : (done ++ queue).Nodup
  covers : stock.length ≤ done.length + fuel

namespace Searching

variable {step : α → List α} {stock done queue : List α} {fuel : Nat} {x : α}

omit [BEq α] [LawfulBEq α] in
theorem queue_eq_nil (h : Searching stock 0 done queue) : queue = [] := by
  have hlen : (done ++ queue).length ≤ stock.length := (h.nodup.subperm h.met).length_le
  have hcovers := h.covers
  rw [List.length_append] at hlen
  exact List.eq_nil_of_length_eq_zero (by omega)

theorem next (h : Searching stock (fuel + 1) done (x :: queue))
    (hstock : ∀ x ∈ stock, ∀ y ∈ step x, y ∈ stock) :
    Searching stock fuel (done ++ [x]) (queue ++ fresh (done ++ x :: queue) (step x)) := by
  have happend : done ++ [x] ++ (queue ++ fresh (done ++ x :: queue) (step x)) =
      (done ++ x :: queue) ++ fresh (done ++ x :: queue) (step x) := by simp
  refine ⟨?_, ?_, ?_⟩
  · rw [happend, List.forall_mem_append]
    refine ⟨h.met, fun y hy => ?_⟩
    exact hstock x (h.met x (by simp)) y (mem_fresh.1 hy).1
  · rw [happend]
    refine List.nodup_append.2 ⟨h.nodup, nodup_fresh, ?_⟩
    intro a ha b hb hab
    exact (mem_fresh.1 hb).2 (hab ▸ ha)
  · have hcovers := h.covers
    rw [List.length_append, List.length_singleton]
    omega

/-- The search ends with a closed list, if what has been expanded leads to what has been met. -/
theorem explore_closed (h : Searching stock fuel done queue)
    (hstock : ∀ x ∈ stock, ∀ y ∈ step x, y ∈ stock)
    (hdone : ∀ x ∈ done, ∀ y ∈ step x, y ∈ done ++ queue) :
    ∀ x ∈ explore step fuel done queue, ∀ y ∈ step x, y ∈ explore step fuel done queue := by
  induction fuel generalizing done queue with
  | zero =>
    have hqueue := h.queue_eq_nil
    subst hqueue
    intro x hx y hy
    exact hdone x (by simpa [explore] using hx) y hy
  | succ fuel ih =>
    cases queue with
    | nil =>
      intro x hx y hy
      have := hdone x (by simpa [explore] using hx) y hy
      simpa [explore] using this
    | cons x queue =>
      refine ih (h.next hstock) fun z hz y hy => ?_
      have hmem : y ∈ done ++ x :: queue ∨ y ∈ step x := by
        rcases List.mem_append.1 hz with hz | hz
        · exact .inl (hdone z hz y hy)
        · rw [List.mem_singleton.1 hz] at hy
          exact .inr hy
      simp only [List.mem_append, List.mem_cons, mem_fresh, List.not_mem_nil] at hmem ⊢
      grind

/-- More fuel finds nothing else. -/
theorem explore_succ (h : Searching stock fuel done queue)
    (hstock : ∀ x ∈ stock, ∀ y ∈ step x, y ∈ stock) :
    explore step (fuel + 1) done queue = explore step fuel done queue := by
  induction fuel generalizing done queue with
  | zero =>
    have hqueue := h.queue_eq_nil
    subst hqueue
    simp [explore]
  | succ fuel ih =>
    cases queue with
    | nil => rfl
    | cons x queue => exact ih (h.next hstock)

end Searching

theorem mem_fresh_nil {seeds : List α} {x : α} : x ∈ fresh [] seeds ↔ x ∈ seeds := by
  simp [mem_fresh]

theorem Confined.searching {step : α → List α} {bound : Nat} {seeds stock : List α}
    (h : Confined step seeds stock) (hbound : stock.length ≤ bound) :
    Searching stock bound [] (fresh [] seeds) where
  met x hx := h.seeds_mem x (mem_fresh_nil.1 hx)
  nodup := nodup_fresh
  covers := by simpa using hbound

/-- A search with a bound that covers its stock finds exactly what steps reach. -/
theorem mem_discover_iff {step : α → List α} {bound : Nat} {seeds stock : List α}
    (h : Confined step seeds stock) (hbound : stock.length ≤ bound) {x : α} :
    x ∈ discover step bound seeds ↔ Reached step seeds x := by
  constructor
  · intro hx
    have hseeds : ∀ y ∈ [] ++ fresh [] seeds, Reached step seeds y :=
      fun y hy => .seed (mem_fresh_nil.1 hy)
    exact reached_of_mem_explore hseeds x hx
  · intro hx
    have hclosed : ∀ x ∈ discover step bound seeds, ∀ y ∈ step x, y ∈ discover step bound seeds :=
      (h.searching hbound).explore_closed h.step_mem (by simp)
    induction hx with
    | seed hy => exact seeds_prefix_discover.subset (mem_fresh_nil.2 hy)
    | step _ hy ih => exact hclosed _ ih _ hy

/-- A larger bound makes no difference. -/
theorem discover_eq_of_le {step : α → List α} {bound bound' : Nat} {seeds stock : List α}
    (h : Confined step seeds stock) (hbound : stock.length ≤ bound) (hle : bound ≤ bound') :
    discover step bound' seeds = discover step bound seeds := by
  induction hle with
  | refl => rfl
  | step hle ih =>
    exact ((h.searching (Nat.le_trans hbound hle)).explore_succ h.step_mem).trans ih

/-! ### Renaming -/

section Renaming

variable [BEq β] [LawfulBEq β] {f : α → β} {step : α → List α} {step' : β → List β}

theorem fresh_map {seen xs : List α} (hf : ∀ x ∈ seen ++ xs, ∀ y ∈ seen ++ xs, f x = f y → x = y) :
    fresh (seen.map f) (xs.map f) = (fresh seen xs).map f := by
  induction xs generalizing seen with
  | nil => rfl
  | cons x xs ih =>
    have hcontains : (seen.map f).contains (f x) = seen.contains x := by
      rw [Bool.eq_iff_iff, List.contains_iff_mem, List.contains_iff_mem, List.mem_map]
      constructor
      · rintro ⟨y, hy, hyx⟩
        rw [← hf y (by simp [hy]) x (by simp) hyx]
        exact hy
      · intro hx
        exact ⟨x, hx, rfl⟩
    simp only [List.map_cons, fresh, hcontains]
    split
    · exact ih fun y hy z hz => hf y (by grind) z (by grind)
    · rw [List.map_cons, ← ih fun y hy z hz => hf y (by grind) z (by grind), List.map_cons]

/-- A search in renamed elements finds the renamed elements, in the same order. The renaming has to
be faithful on what is reached only. -/
theorem explore_map {seeds : List α} {fuel : Nat} {done queue : List α}
    (hf : ∀ x, Reached step seeds x → ∀ y, Reached step seeds y → f x = f y → x = y)
    (hstep : ∀ x, Reached step seeds x → step' (f x) = (step x).map f)
    (hmet : ∀ x ∈ done ++ queue, Reached step seeds x) :
    explore step' fuel (done.map f) (queue.map f) = (explore step fuel done queue).map f := by
  induction fuel generalizing done queue with
  | zero => simp [explore]
  | succ fuel ih =>
    cases queue with
    | nil => rfl
    | cons x queue =>
      have hx : Reached step seeds x := hmet x (by simp)
      have hall : ∀ y ∈ (done ++ x :: queue) ++ step x, Reached step seeds y := by
        intro y hy
        rcases List.mem_append.1 hy with hy | hy
        · exact hmet y hy
        · exact .step hx hy
      have hfresh : fresh (done.map f ++ f x :: queue.map f) ((step x).map f) =
          (fresh (done ++ x :: queue) (step x)).map f := by
        rw [← fresh_map fun y hy z hz => hf y (hall y hy) z (hall z hz)]
        simp
      have hnext : ∀ y ∈ done ++ [x] ++ (queue ++ fresh (done ++ x :: queue) (step x)),
          Reached step seeds y := by
        intro y hy
        refine hall y ?_
        simp only [List.mem_append, List.mem_singleton, mem_fresh] at hy
        grind
      have := ih hnext
      rw [List.map_append, List.map_append, ← hfresh, List.map_singleton] at this
      simpa only [explore, List.map_cons, hstep x hx] using this

theorem discover_map {seeds : List α} {bound : Nat}
    (hf : ∀ x, Reached step seeds x → ∀ y, Reached step seeds y → f x = f y → x = y)
    (hstep : ∀ x, Reached step seeds x → step' (f x) = (step x).map f) :
    discover step' bound (seeds.map f) = (discover step bound seeds).map f := by
  have hseeds : fresh ([].map f) (seeds.map f) = (fresh [] seeds).map f := by
    refine fresh_map ?_
    intro x hx y hy
    exact hf x (.seed (by simpa using hx)) y (.seed (by simpa using hy))
  have hmet : ∀ x ∈ [] ++ fresh [] seeds, Reached step seeds x :=
    fun x hx => .seed (mem_fresh_nil.1 hx)
  have hmap : explore step' bound ([].map f) ((fresh [] seeds).map f) =
      (explore step bound [] (fresh [] seeds)).map f := explore_map hf hstep hmet
  rw [← hseeds] at hmap
  exact hmap

end Renaming

end CallChain
