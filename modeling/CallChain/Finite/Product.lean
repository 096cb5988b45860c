import CallChain.Finite.Search

/-!
# Intersection and complement
-/

namespace CallChain.Dfa

/-! ### Intersection -/

/-- A pair of states after one more symbol; none where either is stuck. -/
def stepPair (d e : Dfa) (pair : Nat × Nat) (symbol : Nat) : Option (Nat × Nat) := do
  let left ← d.next pair.1 symbol
  let right ← e.next pair.2 symbol
  return (left, right)

/-- May words end at both states of a pair? -/
def bothEndAt (d e : Dfa) (pair : Nat × Nat) : Except Fault Bool := do
  if ← d.endsAt pair.1 then e.endsAt pair.2 else return false

/-- A pair of states after one more symbol, and whether words end there; none where either is
stuck. -/
def enteredPair (d e : Dfa) (pair : Nat × Nat) (symbol : Nat) :
    Except Fault (Option ((Nat × Nat) × Except Fault Bool)) := do
  match ← d.transition pair.1 symbol, ← e.transition pair.2 symbol with
  | some left, some right => return some ((left, right), bothEndAt d e (left, right))
  | _, _ => return none

/-- Accepts what both automata accept. They must be over one alphabet. -/
def intersect (d e : Dfa) : Except Fault Dfa :=
  if d.alphabet ≠ e.alphabet then
    .error (.intersectedAlphabets d.alphabet e.alphabet)
  else
    searched d.alphabet (enteredPair d e) .unnumberedElement (d.size * e.size)
      (d.initial, e.initial) (bothEndAt d e (d.initial, e.initial))

/-! ### Complement -/

/-- Accepts what the automaton rejects. Missing transitions lead to a further state, from which
nothing leads away. -/
def complement (d : Dfa) : Dfa :=
  let sink := d.size
  let flip (row : Row) : Row :=
    ⟨!row.accepting, row.targets.map fun target => some (target.getD sink)⟩
  { d with rows := (d.rows.push (blankRow d.alphabet false)).map flip }

/-- Lets words end where they did not end, and not where they did. -/
def flipped (d : Dfa) : Dfa :=
  { d with rows := d.rows.map fun row => { row with accepting := !row.accepting } }

/-- Gives a state all transitions; those that it does not have lead to `sink`. -/
def completed (sink : Nat) (d : Dfa) (state : Nat) : Except Fault Dfa :=
  d.symbols.foldlM (retarget (fun target => some (target.getD sink)) state) d

/-- The complement, one transition after the other. -/
def complemented (d : Dfa) : Except Fault Dfa := do
  let (sink, d) := d.addState false
  let d ← d.states.foldlM (completed sink) d
  return d.flipped

end CallChain.Dfa
