/-!
# Stable sorting by a comparison

`sortBy le xs` puts the elements of `xs` into the order of `le` and leaves elements that `le`
relates both ways in the order they came in. It is an insertion sort: the lists sorted here are
the actions of one table and the transitions of one state, and every step is a structural
recursion, so that closed sorts compute in the kernel.

`sortByM` sorts by a comparison that may fail.

* `sortBy_perm`: sorting loses and adds nothing.
* `mem_sortBy`: the same as membership.
* `sortByM_eq`: a comparison that does not fail.
-/

namespace CallChain

/-- Puts `x` before the first element that `le` allows behind it. -/
def insertBy {α : Type} (le : α → α → Bool) (x : α) : List α → List α
  | [] => [x]
  | y :: ys => if le x y then x :: y :: ys else y :: insertBy le x ys

/-- Stable sort: each element is inserted before the elements that came after it. -/
def sortBy {α : Type} (le : α → α → Bool) : List α → List α
  | [] => []
  | x :: xs => insertBy le x (sortBy le xs)

variable {α : Type} (le : α → α → Bool)

theorem insertBy_perm (x : α) (xs : List α) : (insertBy le x xs).Perm (x :: xs) := by
  induction xs with
  | nil => exact .refl _
  | cons y ys ih =>
    unfold insertBy
    split
    · exact .refl _
    · exact (ih.cons y).trans (.swap x y ys)

theorem sortBy_perm (xs : List α) : (sortBy le xs).Perm xs := by
  induction xs with
  | nil => exact .refl _
  | cons x xs ih => exact (insertBy_perm le x _).trans (ih.cons x)

theorem mem_sortBy {y : α} {xs : List α} : y ∈ sortBy le xs ↔ y ∈ xs :=
  (sortBy_perm le xs).mem_iff

/-! ### Comparisons that may fail -/

section Failing

variable {ε : Type} (leM : α → α → Except ε Bool)

/-- Puts `x` before the first element that `leM` allows behind it. -/
def insertByM (x : α) : List α → Except ε (List α)
  | [] => .ok [x]
  | y :: ys => do
    if ← leM x y then
      return x :: y :: ys
    else
      return y :: (← insertByM x ys)

/-- Stable sort, unless a comparison fails. -/
def sortByM : List α → Except ε (List α)
  | [] => .ok []
  | x :: xs => do insertByM leM x (← sortByM xs)

variable {le leM}

theorem insertByM_eq {x : α} {xs : List α} (h : ∀ y ∈ xs, leM x y = .ok (le x y)) :
    insertByM leM x xs = .ok (insertBy le x xs) := by
  induction xs with
  | nil => rfl
  | cons y ys ih =>
    rw [List.forall_mem_cons] at h
    rw [insertByM, insertBy, h.1, ih h.2]
    cases le x y <;> rfl

/-- Comparisons that fail nowhere sort as comparisons without failures do. -/
theorem sortByM_eq {xs : List α} (h : ∀ x ∈ xs, ∀ y ∈ xs, leM x y = .ok (le x y)) :
    sortByM leM xs = .ok (sortBy le xs) := by
  induction xs with
  | nil => rfl
  | cons x xs ih =>
    have hrest : ∀ y ∈ xs, ∀ z ∈ xs, leM y z = .ok (le y z) := fun y hy z hz =>
      h y (List.mem_cons_of_mem x hy) z (List.mem_cons_of_mem x hz)
    rw [sortByM, ih hrest]
    refine insertByM_eq fun y hy => ?_
    exact h x List.mem_cons_self y (List.mem_cons_of_mem x ((mem_sortBy le).1 hy))

end Failing

end CallChain
