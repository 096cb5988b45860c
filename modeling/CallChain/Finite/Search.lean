import CallChain.Finite.Access

/-!
# Automata of searches

`Dfa.searched` makes an automaton while it searches. Each element that is met becomes a state and
waits; the element that waits longest is expanded next, and what its symbols lead to is written into
the table. Elements are numbered in the order in which they are met.

A step answers where a symbol leads and what was found out about whether words end there, which
matters for elements that are new.
-/

namespace CallChain.Dfa

/-- A table under construction. -/
structure Search (σ : Type) where
  /-- The automaton so far. -/
  result : Dfa
  /-- What the states stand for, by number. -/
  index : List σ
  /-- What waits to be expanded. -/
  queue : List σ

namespace Search

variable {σ : Type} [BEq σ]

/-- No states. -/
def start (alphabet : Nat) : Search σ := ⟨⟨alphabet, #[], 0⟩, [], []⟩

/-- The number of an element; one that has none gets the next and waits. -/
def enter (s : Search σ) (x : σ) (accepting : Except Fault Bool) :
    Except Fault (Nat × Search σ) :=
  match s.index.idxOf? x with
  | some number => .ok (number, s)
  | none => do
    let (number, result) := s.result.addState (← accepting)
    return (number, ⟨result, s.index ++ [x], s.queue ++ [x]⟩)

variable (step : σ → Nat → Except Fault (Option (σ × Except Fault Bool)))

/-- Follows one symbol from the element `x` with the number `source`. -/
def follow (source : Nat) (x : σ) (s : Search σ) (symbol : Nat) : Except Fault (Search σ) := do
  match ← step x symbol with
  | none => return s
  | some (y, accepting) =>
    let (target, s) ← s.enter y accepting
    let result ← s.result.setTransition source symbol (some target)
    return { s with result }

/-- Expands what waits, at most `fuel` elements. An element that waits without a number is the
fault `lost`. -/
def expand (lost : Fault) : Nat → Search σ → Except Fault (Search σ)
  | 0, s => .ok s
  | fuel + 1, s =>
    match s.queue with
    | [] => .ok s
    | x :: queue =>
      match s.index.idxOf? x with
      | none => .error lost
      | some source => do
        let s ← s.result.symbols.foldlM (follow step source x) { s with queue }
        expand lost fuel s

end Search

variable {σ : Type} [BEq σ]

/-- The automaton that a search from an element makes. `bound` limits the number of states. -/
def searched (alphabet : Nat) (step : σ → Nat → Except Fault (Option (σ × Except Fault Bool)))
    (lost : Fault) (bound : Nat) (start : σ) (accepting : Except Fault Bool) :
    Except Fault Dfa := do
  let (_, s) ← (Search.start alphabet).enter start accepting
  let s ← s.expand step lost bound
  return s.result

end CallChain.Dfa
