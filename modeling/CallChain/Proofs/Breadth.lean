import CallChain.Proofs.Discovery

/-!
# How a breadth-first search ends, and the order in which it meets elements

`explore` counts its rounds and stops when its bound is used up. `Ends` is the search that does not
count: it stops when nothing is waiting. A search within a stock that its bound covers stops for
that reason.

What is met is met in order: an element that is waiting is expanded before those that were met after
it, and so is followed first. Any relation that grows along steps in this way (`SearchOrder`) holds
between what is met earlier and what is met later.

* `Confined.ends_discover`: the bound is not what ends a search.
* `pairwise_discover`: the order in which elements are met.
-/

namespace CallChain

variable {α : Type} [BEq α]

/-- A search that has expanded some elements while others wait ends with a list, nothing being left
to wait. -/
inductive Ends (step : α → List α) : List α → List α → List α → Prop where
  | done (found : List α) : Ends step found [] found
  | expand {done queue found : List α} {x : α}
      (rest : Ends step (done ++ [x]) (queue ++ fresh (done ++ x :: queue) (step x)) found) :
      Ends step done (x :: queue) found

variable [LawfulBEq α]

/-! ### The end of a search -/

section End

variable {step : α → List α} {stock seeds done queue : List α} {fuel bound : Nat}

/-- A search whose fuel covers what has not been expanded ends before it is out of fuel. -/
theorem Searching.ends_explore (h : Searching stock fuel done queue)
    (hstock : ∀ x ∈ stock, ∀ y ∈ step x, y ∈ stock) :
    Ends step done queue (explore step fuel done queue) := by
  induction fuel generalizing done queue with
  | zero =>
    have hqueue := h.queue_eq_nil
    subst hqueue
    rw [explore, List.append_nil]
    exact .done done
  | succ fuel ih =>
    cases queue with
    | nil => exact .done done
    | cons x queue => exact .expand (ih (h.next hstock))

/-- A search whose bound covers its stock ends because nothing is waiting. -/
theorem Confined.ends_discover (h : Confined step seeds stock) (hbound : stock.length ≤ bound) :
    Ends step [] (fresh [] seeds) (discover step bound seeds) :=
  (h.searching hbound).ends_explore h.step_mem

end End

/-! ### The order of a search -/

/-- What comes later in `fresh` stands first behind what comes earlier. -/
theorem pairwise_fresh (seen xs : List α) :
    (fresh seen xs).Pairwise fun y' y =>
      ∃ pre post, xs = pre ++ y :: post ∧ y ∉ pre ∧ y' ∈ pre := by
  induction xs generalizing seen with
  | nil => exact .nil
  | cons x xs ih =>
    have hcons {seen : List α} (hseen : x ∈ seen) {y' y : α} (hy : y ∈ fresh seen xs) :
        (∃ pre post, xs = pre ++ y :: post ∧ y ∉ pre ∧ y' ∈ pre) →
        ∃ pre post, x :: xs = pre ++ y :: post ∧ y ∉ pre ∧ y' ∈ pre := by
      rintro ⟨pre, post, rfl, hpre, hy'⟩
      have hne : y ≠ x := fun heq => (mem_fresh.1 hy).2 (heq ▸ hseen)
      exact ⟨x :: pre, post, rfl, by simp [hne, hpre], List.mem_cons_of_mem x hy'⟩
    unfold fresh
    split
    · rename_i hseen
      exact (ih seen).imp_of_mem fun _ hy => hcons (by simpa using hseen) hy
    · refine List.pairwise_cons.2 ⟨fun y hy => ?_, (ih (x :: seen)).imp_of_mem fun _ hy =>
        hcons List.mem_cons_self hy⟩
      obtain ⟨hmem, hnew⟩ := mem_fresh.1 hy
      obtain ⟨pre, post, rfl, hpre⟩ := List.eq_append_cons_of_mem hmem
      have hne : y ≠ x := fun heq => hnew (heq ▸ List.mem_cons_self)
      exact ⟨x :: pre, post, rfl, by simp [hne, hpre], List.mem_cons_self⟩

/-- A relation in which a search from `start` meets elements. Each element is led to by one, its
origin, such that what comes before the origin leads only to what comes before the element, and
so does the origin itself with the steps in front of the one to the element. -/
structure SearchOrder (step : α → List α) (start : α) (before : α → α → Prop) : Prop where
  start_before : ∀ y, Reached step [start] y → y ≠ start → before start y
  exists_origin : ∀ y, Reached step [start] y → y ≠ start →
    ∃ z, Reached step [start] z ∧ y ∈ step z ∧
      (∀ x, before x z → ∀ y' ∈ step x, before y' y) ∧
      ∀ pre post, step z = pre ++ y :: post → y ∉ pre → ∀ y' ∈ pre, before y' y

/-- A search that has met everything so far in the order: whatever it has not met comes later. -/
structure InOrder (step : α → List α) (start : α) (before : α → α → Prop) (done queue : List α) :
    Prop where
  reached : ∀ x ∈ done ++ queue, Reached step [start] x
  start_mem : start ∈ done ++ queue
  closed : ∀ x ∈ done, ∀ y ∈ step x, y ∈ done ++ queue
  pairwise : (done ++ queue).Pairwise before
  later : ∀ y, Reached step [start] y → y ∉ done ++ queue → ∀ x ∈ done ++ queue, before x y

namespace InOrder

variable {step : α → List α} {start x : α} {before : α → α → Prop} {done queue : List α}

omit [LawfulBEq α] [BEq α] in
/-- What has not been met has an origin that is expanded now or comes later. -/
theorem exists_origin (h : InOrder step start before done (x :: queue))
    (horder : SearchOrder step start before) {y : α} (hy : Reached step [start] y)
    (hnew : y ∉ done ++ x :: queue) :
    ∃ z, y ∈ step z ∧ (z = x ∨ before x z) ∧
      (∀ x, before x z → ∀ y' ∈ step x, before y' y) ∧
      ∀ pre post, step z = pre ++ y :: post → y ∉ pre → ∀ y' ∈ pre, before y' y := by
  have hne : y ≠ start := fun heq => hnew (heq ▸ h.start_mem)
  obtain ⟨z, hz, hyz, hearlier, hsame⟩ := horder.exists_origin y hy hne
  refine ⟨z, hyz, ?_, hearlier, hsame⟩
  -- what has been expanded leads to nothing new
  have hdone : z ∉ done := fun hz => hnew (h.closed z hz y hyz)
  by_cases hmem : z ∈ done ++ x :: queue
  · rcases List.mem_cons.1 ((List.mem_append.1 hmem).resolve_left hdone) with rfl | hqueue
    · exact .inl rfl
    · exact .inr ((List.pairwise_cons.1 (List.pairwise_append.1 h.pairwise).2.1).1 z hqueue)
  · exact .inr (h.later z hz hmem x (by simp))

/-- Expanding what has waited longest keeps the order. -/
theorem next (h : InOrder step start before done (x :: queue))
    (horder : SearchOrder step start before) :
    InOrder step start before (done ++ [x])
      (queue ++ fresh (done ++ x :: queue) (step x)) := by
  have hx : Reached step [start] x := h.reached x (by simp)
  have happend : done ++ [x] ++ (queue ++ fresh (done ++ x :: queue) (step x)) =
      (done ++ x :: queue) ++ fresh (done ++ x :: queue) (step x) := by simp
  have hfresh {y : α} (hy : y ∈ fresh (done ++ x :: queue) (step x)) :
      Reached step [start] y ∧ y ∉ done ++ x :: queue :=
    ⟨.step hx (mem_fresh.1 hy).1, (mem_fresh.1 hy).2⟩
  refine ⟨?_, ?_, ?_, ?_, ?_⟩ <;> rw [happend]
  · rw [List.forall_mem_append]
    exact ⟨h.reached, fun y hy => (hfresh hy).1⟩
  · exact List.mem_append_left _ h.start_mem
  · intro z hz y hy
    rcases List.mem_append.1 hz with hz | hz
    · exact List.mem_append_left _ (h.closed z hz y hy)
    · rw [List.mem_singleton.1 hz] at hy
      by_cases hmet : y ∈ done ++ x :: queue
      · exact List.mem_append_left _ hmet
      · exact List.mem_append_right _ (mem_fresh.2 ⟨hy, hmet⟩)
  · refine List.pairwise_append.2 ⟨h.pairwise, ?_, fun z hz y hy => ?_⟩
    · refine (pairwise_fresh _ _).imp_of_mem ?_
      rintro y' y hy' hy ⟨pre, post, heq, hpre, hmem⟩
      obtain ⟨z, -, hz, hearlier, hsame⟩ := h.exists_origin horder (hfresh hy).1 (hfresh hy).2
      rcases hz with rfl | hz
      · exact hsame pre post heq hpre y' hmem
      · exact hearlier x hz y' (mem_fresh.1 hy').1
    · exact h.later y (hfresh hy).1 (hfresh hy).2 z hz
  · intro y hy hnew z hz
    have hunmet : y ∉ done ++ x :: queue := fun hmem => hnew (List.mem_append_left _ hmem)
    rcases List.mem_append.1 hz with hz | hz
    · exact h.later y hy hunmet z hz
    · obtain ⟨origin, hyo, ho, hearlier, -⟩ := h.exists_origin horder hy hunmet
      rcases ho with rfl | ho
      · exact absurd (List.mem_append_right _ (mem_fresh.2 ⟨hyo, hunmet⟩)) hnew
      · exact hearlier x ho z (mem_fresh.1 hz).1

theorem pairwise_explore (horder : SearchOrder step start before) {fuel : Nat}
    (h : InOrder step start before done queue) :
    (explore step fuel done queue).Pairwise before := by
  induction fuel generalizing done queue with
  | zero => exact h.pairwise
  | succ fuel ih =>
    cases queue with
    | nil => simpa [explore] using h.pairwise
    | cons x queue => exact ih (h.next horder)

end InOrder

/-- A search meets elements in every order of this kind. -/
theorem pairwise_discover {step : α → List α} {start : α} {before : α → α → Prop} {bound : Nat}
    (h : SearchOrder step start before) : (discover step bound [start]).Pairwise before := by
  have hstart : fresh [] [start] = [start] := by simp [fresh]
  rw [discover, hstart]
  refine InOrder.pairwise_explore h ⟨?_, by simp, by simp, List.pairwise_singleton _ _, ?_⟩
  · intro x hx
    exact .seed (by simpa using hx)
  · intro y hy hne x hx
    have hx : x = start := by simpa using hx
    rw [hx]
    exact h.start_before y hy (by simpa using hne)

end CallChain
