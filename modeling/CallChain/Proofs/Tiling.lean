import Mathlib.Data.List.Basic

/-!
# Tilings

Stretches of numbers, each given by its first number and the one behind its last, tile a range: the
first begins where the range does, every other one where the one before it stops, and the last one
stops where the range does. None of them is empty.

* `Tiles.exists_mem`: every number of the range lies in a stretch.
* `Tiles.pairwise`: no two stretches meet.
-/

namespace CallChain

/-- Stretches tile the numbers from `start` up to and without `stop`. -/
inductive Tiles : Nat → List (Nat × Nat) → Nat → Prop where
  | nil {start : Nat} : Tiles start [] start
  | cons {start middle stop : Nat} {ps : List (Nat × Nat)} (hlt : start < middle)
      (h : Tiles middle ps stop) : Tiles start ((start, middle) :: ps) stop

namespace Tiles

variable {start middle stop n : Nat} {ps qs : List (Nat × Nat)} {p : Nat × Nat}

theorem nil_iff : Tiles start [] stop ↔ start = stop := by
  constructor
  · rintro ⟨⟩
    rfl
  · rintro rfl
    exact .nil

theorem cons_iff : Tiles start (p :: ps) stop ↔ p.1 = start ∧ p.1 < p.2 ∧ Tiles p.2 ps stop := by
  constructor
  · rintro ⟨⟩
    exact ⟨rfl, ‹_›, ‹_›⟩
  · rintro ⟨rfl, hlt, h⟩
    exact .cons hlt h

theorem append (h : Tiles start ps middle) (h' : Tiles middle qs stop) :
    Tiles start (ps ++ qs) stop := by
  induction h with
  | nil => exact h'
  | cons hlt _ ih => exact .cons hlt (ih h')

theorem le (h : Tiles start ps stop) : start ≤ stop := by
  induction h with
  | nil => exact Nat.le_refl _
  | cons hlt _ ih => omega

/-- Each stretch has a number, and lies in the range. -/
theorem bounds_of_mem (h : Tiles start ps stop) (hp : p ∈ ps) :
    start ≤ p.1 ∧ p.1 < p.2 ∧ p.2 ≤ stop := by
  induction h with
  | nil => cases hp
  | cons hlt h ih =>
    rcases List.mem_cons.1 hp with rfl | hp
    · exact ⟨Nat.le_refl _, hlt, h.le⟩
    · have hbounds := ih hp
      omega

/-- Each stretch stops before the ones behind it begin. -/
theorem pairwise (h : Tiles start ps stop) : ps.Pairwise (·.2 ≤ ·.1) := by
  induction h with
  | nil => exact .nil
  | cons _ h ih => exact List.pairwise_cons.2 ⟨fun p hp => (h.bounds_of_mem hp).1, ih⟩

theorem exists_mem (h : Tiles start ps stop) (hstart : start ≤ n) (hstop : n < stop) :
    ∃ p ∈ ps, p.1 ≤ n ∧ n < p.2 := by
  induction h with
  | nil => omega
  | @cons start middle _ _ _ _ ih =>
    rcases Nat.lt_or_ge n middle with hlt | hge
    · exact ⟨(start, middle), List.mem_cons_self, hstart, hlt⟩
    · obtain ⟨p, hp, hn⟩ := ih hge hstop
      exact ⟨p, List.mem_cons_of_mem _ hp, hn⟩

end Tiles
end CallChain
