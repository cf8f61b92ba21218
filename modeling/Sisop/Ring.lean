import Mathlib.Data.Int.ModEq
import Mathlib.Tactic.Common

/-! A ring buffer. Its places are numbered without wrapping around: the places from
`r` to `w` are in use, and place `j` is kept in the cell `j % cap`. -/
namespace Sisop

variable {α : Type} {cap r w : ℕ}

/-- Two places in use at once have different cells. -/
theorem ring_cell_ne {i j : ℕ} (hij : i < j) (hj : j < i + cap) : j % cap ≠ i % cap := by
  intro h
  have hdvd : cap ∣ j - i := (Nat.modEq_iff_dvd' hij.le).mp h.symm
  have hle := Nat.le_of_dvd (by omega) hdvd
  omega

/-- A place that is free has none of the cells in use. -/
theorem ring_free {j : ℕ} (hr : r ≤ j) (hw : j < w) (hfree : w < r + cap) : j % cap ≠ w % cap :=
  (ring_cell_ne hw (by omega)).symm

/-- The cell after `p`, when it is found by a comparison. -/
theorem ring_next {p : ℕ} (hp : p < cap) : (if p + 1 = cap then 0 else p + 1) = (p + 1) % cap := by
  by_cases h : p + 1 = cap
  · rw [if_pos h, h, Nat.mod_self]
  · rw [if_neg h, Nat.mod_eq_of_lt (by omega)]

/-- The places from `r` on keep the elements of the list. -/
def RingHolds (cell : ℕ → Option α) (cap r : ℕ) (q : List α) : Prop :=
  ∀ i < q.length, cell ((r + i) % cap) = q[i]?

section RingHolds

variable {cell cell' : ℕ → Option α} {q : List α} {x : α}

theorem RingHolds.nil : RingHolds cell cap r [] := fun _ hi => absurd hi (Nat.not_lt_zero _)

/-- A write to the first free cell puts an element at the end. -/
theorem RingHolds.push (h : RingHolds cell cap r q) (hq : q.length < cap) (hx : cell' ((r + q.length) % cap) = some x)
    (hcell : ∀ j, j ≠ (r + q.length) % cap → cell' j = cell j) : RingHolds cell' cap r (q ++ [x]) := by
  intro i hi
  rw [List.length_append, List.length_singleton] at hi
  rcases Nat.lt_succ_iff_lt_or_eq.mp hi with hlt | rfl
  · have hne : (r + i) % cap ≠ (r + q.length) % cap := ring_free (Nat.le_add_right r i) (by omega) (by omega)
    rw [hcell _ hne, h i hlt, List.getElem?_append_left hlt]
  · rw [hx, List.getElem?_concat_length]

/-- The first element is in the first cell, and the others follow it. -/
theorem RingHolds.pop (h : RingHolds cell cap r (x :: q)) :
    cell (r % cap) = some x ∧ RingHolds cell cap ((r + 1) % cap) q := by
  constructor
  · exact h 0 (Nat.succ_pos _)
  · intro i hi
    have hcell := h (i + 1) (Nat.succ_lt_succ hi)
    calc cell (((r + 1) % cap + i) % cap) = cell ((r + (i + 1)) % cap) := by
          rw [Nat.mod_add_mod, Nat.add_assoc, Nat.add_comm 1 i]
      _ = q[i]? := hcell

end RingHolds
end Sisop
