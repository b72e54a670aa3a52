import Mathlib.Algebra.Order.BigOperators.Group.List
import Mathlib.Data.Rat.Cast.Order
import Mathlib.Tactic.Linarith
import Segue.Scalar

/-!
Computing without rounding: on rationals the operations of the interface are the ordinary ones.
-/

namespace Segue.Scalar

variable (x y : Rat)

@[simp] theorem atLeast_rat (bound : Rat) : atLeast bound x = max bound x := by
  unfold atLeast
  split
  · exact (max_eq_right (le_of_lt ‹_›)).symm
  · exact (max_eq_left (not_lt.mp ‹_›)).symm

@[simp] theorem larger_rat : larger x y = max x y := by
  unfold larger
  split
  · exact (max_eq_left (le_of_lt ‹_›)).symm
  · rw [if_pos (le_refl y)]
    exact (max_eq_right (not_lt.mp ‹_›)).symm

@[simp] theorem smaller_rat : smaller x y = min x y := by
  unfold smaller
  split
  · exact (min_eq_left (le_of_lt ‹_›)).symm
  · rw [if_pos (le_refl y)]
    exact (min_eq_right (not_lt.mp ‹_›)).symm

@[simp] theorem total_rat (xs : List Rat) : total xs = xs.sum := by
  have hfold : ∀ (ys : List Rat) (start : Rat), ys.foldl (· + ·) start = start + ys.sum := by
    intro ys
    induction ys with
    | nil => intro start; exact (add_zero start).symm
    | cons y ys ih =>
        intro start
        rw [List.foldl_cons, ih, List.sum_cons, add_assoc]
  exact (hfold xs (-0)).trans (by rw [neg_zero, zero_add])

@[simp] theorem sortsBefore_rat : sortsBefore x y = decide (x ≤ y) := rfl

variable {low high : Rat} (h : low ≤ high)
include h

theorem le_clamp : low ≤ clamp low high x := by
  unfold clamp
  split
  · exact le_refl low
  · split
    · exact h
    · exact not_lt.mp ‹¬x < low›

theorem clamp_le : clamp low high x ≤ high := by
  unfold clamp
  split
  · exact h
  · split
    · exact le_refl high
    · exact not_lt.mp ‹¬high < x›

end Segue.Scalar
