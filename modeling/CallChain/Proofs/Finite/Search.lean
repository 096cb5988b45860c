import CallChain.Finite.Search
import CallChain.Proofs.Finite.Access
import CallChain.Proofs.Finite.Steps

/-!
# The automaton that a search makes

What a search has written is told at every moment by what it has expanded and by what waits
(`Plan.after`): expanded elements have the rows of `Dfa.ofSteps`, and those that wait have blank
ones. While an element is expanded its row is written up to the symbol that is followed next
(`Plan.within`). At the end nothing waits.

* `Plan.follow_eq`: one symbol of one element.
* `Plan.expand_eq`: the whole search.
* `searched_eq`: a search whose steps do not fail makes the automaton of its step function.
-/

namespace CallChain.Dfa

variable {σ : Type} [BEq σ]

/-- What a search is to make: a step function, where words end, and the numbers of what is met. -/
structure Plan (σ : Type) where
  alphabet : Nat
  step : σ → Nat → Option σ
  accepting : σ → Bool
  order : List σ

namespace Plan

section

variable (p : Plan σ)

/-- The row of an element when the symbols below `count` have been followed. -/
def row (count : Nat) (x : σ) : Row :=
  ⟨p.accepting x, (List.range p.alphabet).map fun symbol =>
    if symbol < count then (p.step x symbol).map p.order.idxOf else none⟩

/-- The search when the elements `done` have been expanded and those in `queue` wait. -/
def after (done queue : List σ) : Search σ :=
  ⟨⟨p.alphabet, (done.map (p.row p.alphabet) ++ queue.map (p.row 0)).toArray, 0⟩, done ++ queue,
    queue⟩

/-- The search when the symbols of `x` below `count` have been followed. -/
def within (done : List σ) (x : σ) (count : Nat) (queue : List σ) : Search σ :=
  ⟨⟨p.alphabet,
      (done.map (p.row p.alphabet) ++ p.row count x :: queue.map (p.row 0)).toArray, 0⟩,
    done ++ x :: queue, queue⟩

/-- What the symbols of an element below `count` lead to. -/
def found (x : σ) (count : Nat) : List σ := (List.range count).filterMap (p.step x)

end

variable {p : Plan σ} {count symbol fuel : Nat} {done queue : List σ} {x y : σ}
  {step : σ → Nat → Except Fault (Option (σ × Except Fault Bool))} {lost : Fault}

/-! ### Rows -/

theorem row_zero : p.row 0 x = blankRow p.alphabet (p.accepting x) := by
  simp [row, blankRow, List.map_const']

theorem row_succ (hsymbol : symbol < p.alphabet) : p.row (symbol + 1) x =
    ⟨p.accepting x, (p.row symbol x).targets.set symbol ((p.step x symbol).map p.order.idxOf)⟩ := by
  refine congrArg (Row.mk (p.accepting x)) (List.ext_getElem (by simp [row]) fun s hs hs' => ?_)
  simp only [row, List.getElem_map, List.getElem_range, List.getElem_set]
  rcases Nat.lt_trichotomy s symbol with hlt | rfl | hgt
  · rw [if_pos (Nat.lt_succ_of_lt hlt), if_neg (Nat.ne_of_gt hlt), if_pos hlt]
  · rw [if_pos (Nat.lt_succ_self s), if_pos rfl]
  · rw [if_neg (by omega), if_neg (Nat.ne_of_lt hgt), if_neg (by omega)]

/-- A symbol that leads nowhere leaves its place blank. -/
theorem row_succ_of_step_eq_none (hstep : p.step x symbol = none) :
    p.row (symbol + 1) x = p.row symbol x := by
  refine congrArg (Row.mk (p.accepting x)) (List.map_congr_left fun s _ => ?_)
  by_cases hs : s = symbol
  · rw [hs, hstep]
    simp
  · have hiff : s < symbol + 1 ↔ s < symbol := by omega
    simp only [hiff]

theorem size_within : (p.within done x count queue).result.size = (done ++ x :: queue).length := by
  simp [within, size]

theorem targets_within : (p.within done x count queue).result.targets done.length =
    (p.row count x).targets := by
  have hplace : done.length = (done.map (p.row p.alphabet)).length := (List.length_map _).symm
  rw [targets, within, hplace]
  simp

/-- Writing where the next symbol leads. -/
theorem setTransition_within (hsymbol : symbol < p.alphabet) (hstep : p.step x symbol = some y) :
    (p.within done x symbol queue).result.setTransition done.length symbol
        (some (p.order.idxOf y)) =
      .ok (p.within done x (symbol + 1) queue).result := by
  have htransition : (p.within done x symbol queue).result.transition done.length symbol =
      .ok none := by
    have hmissing : ¬ (p.within done x symbol queue).result.alphabet ≤ symbol :=
      Nat.not_le.2 hsymbol
    rw [transition, if_neg hmissing, targets_within]
    simp [row, hsymbol]
  rw [setTransition, htransition, ok_bind, within, within, setTarget, List.modify_toArray,
    modify_append_cons (List.length_map _), row_succ hsymbol, hstep]
  rfl

/-- An element whose symbols have all been followed is expanded. -/
theorem within_alphabet : p.within done x p.alphabet queue = p.after (done ++ [x]) queue := by
  simp [within, after]

/-! ### Steps of a search -/

/-- The first element that waits is expanded under the number that it has. -/
theorem expand_cons {s : Search σ} {source : Nat} (hqueue : s.queue = x :: queue)
    (hnumber : s.index.idxOf? x = some source) : s.expand step lost (fuel + 1) =
      s.result.symbols.foldlM (Search.follow step source x) { s with queue } >>=
        (·.expand step lost fuel) := by
  rw [Search.expand, hqueue]
  dsimp only
  rw [hnumber]

variable [LawfulBEq σ]

/-- An element is found, or it gets the next number and waits. -/
theorem enter_within (hbegins : done ++ x :: queue ++ fresh (done ++ x :: queue) [y] <+: p.order) :
    (p.within done x count queue).enter y (.ok (p.accepting y)) =
      .ok (p.order.idxOf y,
        p.within done x count (queue ++ fresh (done ++ x :: queue) [y])) := by
  unfold Search.enter
  -- the order begins with what has been met, so the number of what is met next is the count so far
  by_cases hy : y ∈ done ++ x :: queue
  · have hfresh : fresh (done ++ x :: queue) [y] = [] := by simp [fresh, hy]
    rw [hfresh, List.append_nil] at hbegins
    obtain ⟨rest, hrest⟩ := hbegins
    have hknown : (p.within done x count queue).index.idxOf? y = some (p.order.idxOf y) := by
      rw [← hrest, List.idxOf_append_of_mem hy]
      exact idxOf?_eq_some hy
    rw [hknown, hfresh, List.append_nil]
  · have hfresh : fresh (done ++ x :: queue) [y] = [y] := by simp [fresh, hy]
    rw [hfresh] at hbegins ⊢
    obtain ⟨rest, hrest⟩ := hbegins
    have hnone : (p.within done x count queue).index.idxOf? y = none := List.idxOf?_eq_none_iff.2 hy
    have hnumber : p.order.idxOf y = (p.within done x count queue).result.size := by
      rw [size_within, ← hrest, List.append_assoc]
      exact idxOf_append_cons hy
    rw [hnone, hnumber]
    simp [addState, within, ← row_zero, size]

/-- Following one symbol. -/
theorem follow_eq (hsymbol : symbol < p.alphabet)
    (hstep : step x symbol = .ok ((p.step x symbol).map fun y => (y, .ok (p.accepting y))))
    (hbegins : done ++ x :: queue ++ fresh (done ++ x :: queue) (p.step x symbol).toList <+:
      p.order) :
    Search.follow step done.length x (p.within done x symbol queue) symbol =
      .ok (p.within done x (symbol + 1)
        (queue ++ fresh (done ++ x :: queue) (p.step x symbol).toList)) := by
  unfold Search.follow
  rw [hstep, ok_bind]
  cases hnext : p.step x symbol with
  | none =>
    rw [Option.toList_none, fresh, List.append_nil, within, within, row_succ_of_step_eq_none hnext]
    rfl
  | some y =>
    rw [hnext, Option.toList_some] at hbegins
    simp only [Option.map_some, Option.toList_some, enter_within hbegins, ok_bind,
      setTransition_within hsymbol hnext]
    rfl

/-- What waits when the symbols of `x` below `count` have been followed. -/
def waiting (p : Plan σ) (done : List σ) (x : σ) (queue : List σ) (count : Nat) : List σ :=
  queue ++ fresh (done ++ x :: queue) (p.found x count)

theorem waiting_succ : p.waiting done x queue (count + 1) = p.waiting done x queue count ++
    fresh (done ++ x :: p.waiting done x queue count) (p.step x count).toList := by
  have hlast : [count].filterMap (p.step x) = (p.step x count).toList := by
    cases h : p.step x count <;> simp [h]
  rw [waiting, waiting, found, List.range_succ, List.filterMap_append, hlast, fresh_append]
  simp [found]

theorem waiting_prefix {count' : Nat} (h : count ≤ count') :
    p.waiting done x queue count <+: p.waiting done x queue count' := by
  induction h with
  | refl => exact List.prefix_rfl
  | step _ ih =>
    rw [waiting_succ]
    exact ih.trans (List.prefix_append _ _)

/-- Following all symbols of an element. -/
theorem foldlM_follow_eq (hstep : ∀ symbol < p.alphabet,
      step x symbol = .ok ((p.step x symbol).map fun y => (y, .ok (p.accepting y))))
    (hbegins : done ++ x :: p.waiting done x queue p.alphabet <+: p.order) :
    (List.range p.alphabet).foldlM (Search.follow step done.length x) (p.within done x 0 queue) =
      .ok (p.within done x p.alphabet (p.waiting done x queue p.alphabet)) := by
  let followed (count : Nat) : Search σ := p.within done x count (p.waiting done x queue count)
  have hfollow (symbol : Nat) (hsymbol : symbol < p.alphabet) :
      Search.follow step done.length x (followed symbol) symbol = .ok (followed (symbol + 1)) := by
    have hmet : done ++ x :: p.waiting done x queue (symbol + 1) <+: p.order := by
      refine List.IsPrefix.trans ?_ hbegins
      exact (List.prefix_append_right_inj done).2
        (List.cons_prefix_cons.2 ⟨rfl, waiting_prefix hsymbol⟩)
    rw [waiting_succ, ← List.cons_append, ← List.append_assoc] at hmet
    show _ = Except.ok (p.within done x (symbol + 1) (p.waiting done x queue (symbol + 1)))
    rw [waiting_succ]
    exact follow_eq hsymbol (hstep symbol hsymbol) hmet
  have hfirst : p.waiting done x queue 0 = queue := List.append_nil queue
  have hloop := foldlM_range_eq_ok followed hfollow
  rwa [show followed 0 = p.within done x 0 queue from congrArg (p.within done x 0) hfirst] at hloop

/-! ### Whole searches -/

/-- A search whose fuel covers what it has not expanded ends with all elements expanded. -/
theorem expand_eq {stock : List σ} (h : Searching stock fuel done queue)
    (hstock : ∀ x ∈ stock, ∀ y ∈ p.found x p.alphabet, y ∈ stock)
    (horder : explore (p.found · p.alphabet) fuel done queue = p.order)
    (hstep : ∀ x ∈ p.order, ∀ symbol < p.alphabet,
      step x symbol = .ok ((p.step x symbol).map fun y => (y, .ok (p.accepting y)))) :
    (p.after done queue).expand step lost fuel = .ok (p.after p.order []) := by
  -- by induction on the fuel: what has been expanded and what waits begin the order
  induction fuel generalizing done queue with
  | zero =>
    have hqueue := h.queue_eq_nil
    subst hqueue
    rw [explore, List.append_nil] at horder
    rw [← horder]
    rfl
  | succ fuel ih =>
    cases queue with
    | nil =>
      rw [explore] at horder
      rw [← horder]
      rfl
    | cons x queue =>
      have hx : x ∉ done := fun hx => (List.nodup_append.1 h.nodup).2.2 x hx x (by simp) rfl
      have hnumber : (p.after done (x :: queue)).index.idxOf? x = some done.length := by
        have hplace : (done ++ x :: queue).idxOf x = done.length := idxOf_append_cons hx
        rw [← hplace]
        exact idxOf?_eq_some (List.mem_append_right done List.mem_cons_self)
      have hmet : done ++ x :: p.waiting done x queue p.alphabet <+: p.order := by
        have hbegins : done ++ [x] ++ p.waiting done x queue p.alphabet <+:
            explore (p.found · p.alphabet) (fuel + 1) done (x :: queue) :=
          done_queue_prefix_explore
        rw [horder] at hbegins
        simpa using hbegins
      have hx : x ∈ p.order := hmet.subset (by simp)
      have hloop := foldlM_follow_eq (hstep x hx) hmet
      rw [expand_cons rfl hnumber]
      show ((List.range p.alphabet).foldlM (Search.follow step done.length x)
        (p.within done x 0 queue) >>= _) = _
      rw [hloop, ok_bind, within_alphabet]
      exact ih (h.next hstock) horder

end Plan

variable [LawfulBEq σ] {alphabet bound : Nat} {next : σ → Nat → Option σ}
  {start : σ} {step : σ → Nat → Except Fault (Option (σ × Except Fault Bool))} {lost : Fault}

/-- A search whose steps do not fail makes the automaton of its step function. -/
theorem searched_eq (accepting : σ → Bool) (h : Bounded alphabet next bound start)
    (hstep : ∀ x ∈ stepOrder alphabet next bound start, ∀ symbol < alphabet,
      step x symbol = .ok ((next x symbol).map fun y => (y, .ok (accepting y)))) :
    searched alphabet step lost bound start (.ok (accepting start)) =
      .ok (ofSteps alphabet next accepting bound start) := by
  let p : Plan σ := ⟨alphabet, next, accepting, stepOrder alphabet next bound start⟩
  obtain ⟨stock, hconfined, hlength⟩ := h.exists_confined
  have hfirst : fresh [] [start] = [start] := by simp [fresh]
  have hstart : (Search.start alphabet).enter start (.ok (accepting start)) =
      .ok (0, p.after [] [start]) := by
    rw [Plan.after, List.map_singleton, Plan.row_zero]
    rfl
  have hsearching := hconfined.searching hlength
  rw [hfirst] at hsearching
  have hend : (p.after [] [start]).expand step lost bound = .ok (p.after p.order []) := by
    refine Plan.expand_eq hsearching hconfined.step_mem ?_ hstep
    rw [← hfirst]
    rfl
  have hrows : p.order.map (p.row p.alphabet) = p.order.map fun x =>
      ⟨accepting x, (List.range alphabet).map fun symbol => (next x symbol).map p.order.idxOf⟩ := by
    refine List.map_congr_left fun x _ => congrArg (Row.mk _) ?_
    refine List.map_congr_left fun symbol hs => ?_
    rw [if_pos (List.mem_range.1 hs)]
  rw [searched, hstart, ok_bind]
  dsimp only
  rw [hend, ok_bind, Plan.after, hrows, List.map_nil, List.append_nil]
  rfl

end CallChain.Dfa
