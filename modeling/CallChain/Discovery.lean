/-!
# Breadth-first discovery

`discover step bound seeds` lists what can be reached from `seeds` by `step`, each element once, in
the order in which a breadth-first search first meets it. Determinization, products, minimal
automata, canonical state numbers and reachability all number or collect their states through this
one search.

`bound` is an upper limit on the number of elements that can be met; a caller computes it from the
size of what it searches.

`discoverM` is the search with steps that may fail; a step that fails ends it.

* `nodup_discover`: nothing is listed twice.
* `seeds_prefix_discover`: the seeds come first.
* `discoverM_eq`: a search whose steps do not fail.
-/

namespace CallChain

variable {α : Type} [BEq α]

/-- The elements of a list that have not been seen yet, each at its first occurrence. -/
def fresh (seen : List α) : List α → List α
  | [] => []
  | x :: xs => if seen.contains x then fresh seen xs else x :: fresh (x :: seen) xs

/-- The search with the elements `done`, already expanded, and those in `queue`, met and waiting. -/
def explore (step : α → List α) : Nat → List α → List α → List α
  | 0, done, queue => done ++ queue
  | _ + 1, done, [] => done
  | fuel + 1, done, x :: queue =>
    explore step fuel (done ++ [x]) (queue ++ fresh (done ++ x :: queue) (step x))

/-- Everything reachable from the seeds, in order of discovery. -/
def discover (step : α → List α) (bound : Nat) (seeds : List α) : List α :=
  explore step bound [] (fresh [] seeds)

/-! ### What the search keeps -/

section Lawful

variable [LawfulBEq α]

theorem mem_fresh {seen xs : List α} {y : α} : y ∈ fresh seen xs ↔ y ∈ xs ∧ y ∉ seen := by
  induction xs generalizing seen with
  | nil => simp [fresh]
  | cons x xs ih =>
    unfold fresh
    split
    · rename_i h
      have hx : x ∈ seen := by simpa using h
      grind
    · rename_i h
      have hx : x ∉ seen := by simpa using h
      simp only [List.mem_cons, ih]
      grind

theorem nodup_fresh {seen xs : List α} : (fresh seen xs).Nodup := by
  induction xs generalizing seen with
  | nil => simp [fresh]
  | cons x xs ih =>
    unfold fresh
    split
    · exact ih
    · refine List.nodup_cons.2 ⟨?_, ih⟩
      simp [mem_fresh]

theorem nodup_explore {step : α → List α} {fuel : Nat} {done queue : List α}
    (h : (done ++ queue).Nodup) : (explore step fuel done queue).Nodup := by
  induction fuel generalizing done queue with
  | zero => exact h
  | succ fuel ih =>
    cases queue with
    | nil => simpa [explore] using h
    | cons x queue =>
      refine ih ?_
      have : done ++ [x] ++ (queue ++ fresh (done ++ x :: queue) (step x)) =
          (done ++ x :: queue) ++ fresh (done ++ x :: queue) (step x) := by simp
      rw [this]
      refine List.nodup_append.2 ⟨h, nodup_fresh, ?_⟩
      intro a ha b hb hab
      exact (mem_fresh.1 hb).2 (hab ▸ ha)

/-- Nothing is listed twice. -/
theorem nodup_discover {step : α → List α} {bound : Nat} {seeds : List α} :
    (discover step bound seeds).Nodup :=
  nodup_explore (by simpa using nodup_fresh)

end Lawful

theorem done_queue_prefix_explore {step : α → List α} {fuel : Nat} {done queue : List α} :
    done ++ queue <+: explore step fuel done queue := by
  induction fuel generalizing done queue with
  | zero => exact List.prefix_rfl
  | succ fuel ih =>
    cases queue with
    | nil => simp [explore]
    | cons x queue =>
      refine List.IsPrefix.trans ?_ ih
      refine ⟨fresh (done ++ x :: queue) (step x), ?_⟩
      simp

/-- The seeds come first. -/
theorem seeds_prefix_discover {step : α → List α} {bound : Nat} {seeds : List α} :
    fresh [] seeds <+: discover step bound seeds :=
  (done_queue_prefix_explore : [] ++ fresh [] seeds <+: _)

/-! ### Steps that may fail -/

section Failing

variable {ε : Type}

/-- The search with the elements `done`, already expanded, and those in `queue`, met and waiting. -/
def exploreM (step : α → Except ε (List α)) : Nat → List α → List α → Except ε (List α)
  | 0, done, queue => .ok (done ++ queue)
  | _ + 1, done, [] => .ok done
  | fuel + 1, done, x :: queue => do
    let found ← step x
    exploreM step fuel (done ++ [x]) (queue ++ fresh (done ++ x :: queue) found)

/-- Everything reachable from the seeds, unless a step from it fails. -/
def discoverM (step : α → Except ε (List α)) (bound : Nat) (seeds : List α) :
    Except ε (List α) :=
  exploreM step bound [] (fresh [] seeds)

variable {stepM : α → Except ε (List α)} {step : α → List α}

theorem exploreM_eq {fuel : Nat} {done queue : List α}
    (h : ∀ x ∈ explore step fuel done queue, stepM x = .ok (step x)) :
    exploreM stepM fuel done queue = .ok (explore step fuel done queue) := by
  induction fuel generalizing done queue with
  | zero => rfl
  | succ fuel ih =>
    cases queue with
    | nil => rfl
    | cons x queue =>
      have hx : stepM x = .ok (step x) := h x (done_queue_prefix_explore.subset (by simp))
      rw [exploreM, hx]
      exact ih h

/-- Steps that fail nowhere on the way find what steps without failures find. -/
theorem discoverM_eq {bound : Nat} {seeds : List α}
    (h : ∀ x ∈ discover step bound seeds, stepM x = .ok (step x)) :
    discoverM stepM bound seeds = .ok (discover step bound seeds) :=
  exploreM_eq h

end Failing

end CallChain
