import CallChain.Fault

/-!
# Access by index

Tables are read and written at an index, and an index that a table has no room for is a fault. What
an automaton holds is looked up and changed through these operations wherever it is compiled, so
that no look-up and no change outside of a table passes unnoticed.

* `readAt_eq`, `writeAt_eq`: nothing is refused within the bounds of a table.
-/

namespace CallChain

variable {α : Type}

/-- Refuses an index that is not below a length. -/
def checkIndex (length i : Nat) : Except Fault Unit :=
  if i < length then .ok () else .error (.outOfBounds i length)

/-- Some indices, all of which have to be below a length. -/
def checkIndices (length : Nat) (indices : List Nat) : Except Fault (List Nat) := do
  indices.forM (checkIndex length)
  return indices

/-- What a table holds at an index. -/
def readAt (xs : Array α) (i : Nat) : Except Fault α :=
  match xs[i]? with
  | some x => .ok x
  | none => .error (.outOfBounds i xs.size)

/-- The table with a new entry at an index. -/
def writeAt (xs : Array α) (i : Nat) (x : α) : Except Fault (Array α) := do
  checkIndex xs.size i
  return xs.setIfInBounds i x

variable {xs : Array α} {i length : Nat} {x : α}

theorem checkIndex_eq (h : i < length) : checkIndex length i = .ok () := if_pos h

theorem readAt_of_getElem? (h : xs[i]? = some x) : readAt xs i = .ok x := by
  rw [readAt, h]

theorem readAt_eq (h : i < xs.size) : readAt xs i = .ok xs[i] :=
  readAt_of_getElem? (Array.getElem?_eq_getElem h)

theorem writeAt_eq (h : i < xs.size) : writeAt xs i x = .ok (xs.setIfInBounds i x) := by
  rw [writeAt, checkIndex_eq h]
  rfl

theorem checkIndices_eq {indices : List Nat} (h : ∀ i ∈ indices, i < length) :
    checkIndices length indices = .ok indices := by
  have hall : indices.forM (checkIndex length) = .ok () := by
    induction indices with
    | nil => rfl
    | cons i indices ih =>
      rw [List.forall_mem_cons] at h
      show (checkIndex length i >>= fun _ => indices.forM (checkIndex length)) = .ok ()
      rw [checkIndex_eq h.1]
      exact ih h.2
  rw [checkIndices, hall]
  rfl

end CallChain
