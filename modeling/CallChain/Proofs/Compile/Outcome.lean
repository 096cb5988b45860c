import CallChain.Compile.Problem

/-!
# Outcomes of compilations

`CompileM.Outcome m p post fails` says how a step of a compilation ends that starts with the
progress `p`: with a result and a progress that `post` allows, or with a problem that `fails`
allows. It never ends with a fault. There is one rule for each way to put steps together.

* `Outcome.bind`: one step after the other.
-/

namespace CallChain.CompileM

variable {α β : Type}

/-- How a step of a compilation may end. -/
structure Outcome (m : CompileM α) (p : Progress) (post : α → Progress → Prop)
    (fails : CompileError → Prop) : Prop where
  ends : match m p with
    | (.ok x, p') => post x p'
    | (.error (.problem e), _) => fails e
    | (.error (.fault _), _) => False

variable {m : CompileM α} {p : Progress} {post post' : α → Progress → Prop}
  {fails fails' : CompileError → Prop}

theorem Outcome.mono (h : m.Outcome p post fails) (hpost : ∀ x p', post x p' → post' x p')
    (hfails : ∀ e, fails e → fails' e) : m.Outcome p post' fails' := by
  constructor
  have hends := h.ends
  split at hends
  · exact hpost _ _ hends
  · exact hfails _ hends
  · exact hends.elim

theorem outcome_pure {x : α} (h : post x p) : Outcome (pure x) p post fails := ⟨h⟩

theorem Outcome.bind {f : α → CompileM β} {post : β → Progress → Prop}
    (h : m.Outcome p (fun x p' => (f x).Outcome p' post fails) fails) :
    (m >>= f).Outcome p post fails := by
  constructor
  have hends := h.ends
  show match (match m p with | (r, p') => ExceptT.bindCont f r p') with
    | (.ok x, p') => post x p'
    | (.error (.problem e), _) => fails e
    | (.error (.fault _), _) => False
  split at hends
  next x p' heq =>
    rw [heq]
    exact hends.ends
  next e _ heq =>
    rw [heq]
    exact hends
  next => exact hends.elim

theorem outcome_fail {e : CompileError} (h : fails e) :
    Outcome (fail e : CompileM α) p post fails := ⟨h⟩

/-- A check that succeeds. -/
theorem outcome_checked {result : Except Fault α} {x : α} (hresult : result = .ok x)
    (h : post x p) : Outcome (checked result) p post fails := by
  rw [hresult]
  exact ⟨h⟩

/-- The log takes no part in anything but itself. -/
theorem outcome_note {level : LogLevel} {stage : LogStage} {text : String}
    {post : Unit → Progress → Prop} (h : ∀ log, post () { p with log }) :
    Outcome (note level stage text) p post fails :=
  ⟨h _⟩

theorem outcome_get {post : Progress → Progress → Prop} (h : post p p) :
    Outcome get p post fails := ⟨h⟩

theorem outcome_modify {f : Progress → Progress} {post : Unit → Progress → Prop}
    (h : post () (f p)) : Outcome (modify f) p post fails := ⟨h⟩

/-- How a compilation ends is told by the outcome of its steps. -/
theorem outcome_of_forall {P : Except Abort α → Prop}
    (h : m.Outcome p (fun x _ => P (.ok x)) fun e => P (.error (.problem e))) : P (m p).1 := by
  have hends := h.ends
  split at hends
  next heq =>
    rw [heq]
    exact hends
  next heq =>
    rw [heq]
    exact hends
  next => exact hends.elim

end CallChain.CompileM
