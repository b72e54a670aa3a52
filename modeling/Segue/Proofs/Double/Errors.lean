import Segue.Proofs.Double.Exact

/-!
How far rounding goes. Main statements: a fraction is at most one half away from the whole number it
is rounded to; a size is at most its part of `2 ^ 53` away from the double it is rounded to, and a
quotient of sizes half a unit more.
-/

namespace Segue

namespace Numeral

variable {above below bound : Nat}

theorem roundHalfEven_near (above : Nat) (hbelow : 0 < below) :
    2 * (roundHalfEven above below * below) ≤ 2 * above + below ∧
      2 * above ≤ 2 * (roundHalfEven above below * below) + below := by
  have hdivision := Nat.div_add_mod' above below
  have hrest := Nat.mod_lt above hbelow
  rw [roundHalfEven]
  generalize above / below = whole at hdivision ⊢
  have hnext : (whole + 1) * below = whole * below + below := Nat.succ_mul whole below
  have hparity := Nat.mod_two_eq_zero_or_one whole
  split_ifs with hless hmore
  · omega
  · omega
  · rcases hparity with heven | hodd
    · rw [heven, Nat.add_zero]
      omega
    · rw [hodd]
      omega

/-- A fraction is rounded to less than a bound when it lies by more than one half below it; what
lies just one half below it goes to the even neighbour. -/
theorem roundHalfEven_lt_iff (hbelow : 0 < below) :
    roundHalfEven above below < bound ↔ 2 * above + below < 2 * (bound * below) + bound % 2 := by
  have hdivision := Nat.div_add_mod' above below
  have hrest := Nat.mod_lt above hbelow
  have hleast := le_roundHalfEven above below
  have hmost := roundHalfEven_le above below
  rcases lt_trichotomy (above / below + 1) bound with hlt | rfl | hlt
  · have hproduct := Nat.mul_le_mul_right below (show above / below + 2 ≤ bound by omega)
    rw [Nat.add_mul] at hproduct
    omega
  · rw [roundHalfEven]
    generalize above / below = whole at hdivision ⊢
    have hnext : (whole + 1) * below = whole * below + below := Nat.succ_mul whole below
    split_ifs <;> omega
  · have hproduct := Nat.mul_le_mul_right below (show bound ≤ above / below by omega)
    have hparity := Nat.mod_lt bound Nat.two_pos
    omega

theorem roundHalfEven_pos_iff (hbelow : 0 < below) : 0 < roundHalfEven above below ↔ below < 2 * above := by
  have hone : roundHalfEven above below < 1 ↔ _ := roundHalfEven_lt_iff hbelow
  omega

end Numeral

namespace Double

open Numeral (roundHalfEven)

variable {above below : Nat}

theorem count_lt_overflow {x : Float} {count : Nat} (hx : x.isFinite = true) (hcount : units x = count) :
    count < overflow := by
  have hbound := natAbs_unitsOf_lt (isRegular_of_isFinite hx)
  rwa [← units, hcount, Int.natAbs_natCast] at hbound

/-- From `2 ^ 52` units on the distance of neighbouring doubles is no more than a part of the size. -/
theorem grain_mul_le {size : Nat} (h : 2 ^ 52 ≤ size) : grain size * 2 ^ 52 ≤ size := by
  have hsize : size ≠ 0 := by omega
  rw [grain, ← Nat.pow_add, Nat.sub_add_cancel ((Nat.le_log2 hsize).mpr h)]
  exact Nat.log2_self_le hsize

theorem grain_eq_one_or (size : Nat) : grain size = 1 ∨ grain size * 2 ^ 52 ≤ size := by
  rcases Nat.lt_or_ge size.log2 52 with hlt | hge
  · left
    rw [grain, Nat.sub_eq_zero_of_le hlt.le, Nat.pow_zero]
  · right
    have hsize : size ≠ 0 := by
      rintro rfl
      rw [Nat.log2_zero] at hge
      omega
    exact grain_mul_le ((Nat.le_log2 hsize).mp hge)

theorem rounded_of_grain {size : Nat} (h : grain size = 1) : rounded size = size :=
  rounded_of_dvd (h ▸ Nat.one_dvd size)

theorem nearestUnits_neg_count {count : Nat} (h : count < 2 ^ 53) :
    nearestUnits (-(count * perOne : Nat)) = -(count * perOne : Nat) := by
  rw [nearestUnits_neg, nearestUnits_natCast, rounded_count h]

theorem rounded_pos_iff {size : Nat} : 0 < rounded size ↔ 0 < size := by
  refine ⟨fun h => Nat.pos_of_ne_zero ?_, fun h => Nat.mul_pos (rounded_pos h.ne') (grain_pos size)⟩
  rintro rfl
  exact absurd h (by decide)

/-- A size is rounded to a double that is at most its part of `2 ^ 53` away. -/
theorem rounded_near (size : Nat) : |(rounded size : Rat) - size| ≤ size / 2 ^ 53 := by
  rcases grain_eq_one_or size with hone | hgrain
  · rw [rounded_of_grain hone, sub_self, abs_zero]
    positivity
  · obtain ⟨hupper, hlower⟩ := Numeral.roundHalfEven_near size (grain_pos size)
    rw [← rounded] at hupper hlower
    have hgrain : (grain size * 2 ^ 52 : Rat) ≤ size := by exact_mod_cast hgrain
    have hupper : (2 * rounded size : Rat) ≤ 2 * size + grain size := by exact_mod_cast hupper
    have hlower : (2 * size : Rat) ≤ 2 * rounded size + grain size := by exact_mod_cast hlower
    rw [abs_le]
    constructor <;> linarith

/-- A quotient is rounded to a double that is at most its part of `2 ^ 53` and half a unit away. -/
theorem roundedRatio_near (above : Nat) (hbelow : 0 < below) :
    |(roundedRatio above below : Rat) - above / below| ≤ above / below / 2 ^ 53 + 1 / 2 := by
  have hpositive : (0 : Rat) < below := Nat.cast_pos.mpr hbelow
  obtain ⟨hupper, hlower⟩ :=
    Numeral.roundHalfEven_near above (Nat.mul_pos hbelow (grain_pos (above / below)))
  have hproduct : roundHalfEven above (below * grain (above / below)) * (below * grain (above / below)) =
      roundedRatio above below * below := by
    rw [roundedRatio]
    ring
  rw [hproduct] at hupper hlower
  have hupper : (2 * (roundedRatio above below * below) : Rat) ≤ 2 * above + below * grain (above / below) := by
    exact_mod_cast hupper
  have hlower : (2 * above : Rat) ≤ 2 * (roundedRatio above below * below) + below * grain (above / below) := by
    exact_mod_cast hlower
  have hgrain : (below * grain (above / below) : Rat) ≤ above / 2 ^ 52 + below := by
    rcases grain_eq_one_or (above / below) with hone | hgrain
    · rw [hone, Nat.cast_one, mul_one]
      exact le_add_of_nonneg_left (by positivity)
    · have hsize : below * grain (above / below) * 2 ^ 52 ≤ above := by
        rw [Nat.mul_assoc]
        exact (Nat.mul_le_mul_left below hgrain).trans (Nat.mul_div_le above below)
      have hsize : (below * grain (above / below) * 2 ^ 52 : Rat) ≤ above := by exact_mod_cast hsize
      linarith
  have hscaled : ((roundedRatio above below : Rat) - above / below) * below =
      roundedRatio above below * below - above := by
    field_simp
  have hbound : ((above : Rat) / below / 2 ^ 53 + 1 / 2) * below = above / 2 ^ 53 + below / 2 := by
    field_simp
  rw [← mul_le_mul_iff_left₀ hpositive, ← abs_of_pos hpositive, ← abs_mul, abs_of_pos hpositive, hscaled, hbound,
    abs_le]
  constructor <;> linarith

/-- A quotient is rounded to nothing just when it is no more than half a unit. -/
theorem roundedRatio_pos_iff (hbelow : 0 < below) : 0 < roundedRatio above below ↔ below < 2 * above := by
  have hgrain := grain_pos (above / below)
  rw [roundedRatio, Nat.mul_pos_iff_of_pos_right hgrain, Numeral.roundHalfEven_pos_iff (Nat.mul_pos hbelow hgrain)]
  rcases grain_eq_one_or (above / below) with hone | hlarge
  · rw [hone, Nat.mul_one]
  · have hsize : below * (grain (above / below) * 2 ^ 52) ≤ above :=
      (Nat.mul_le_mul_left below hlarge).trans (Nat.mul_div_le above below)
    have hunit : below * 1 ≤ below * grain (above / below) := Nat.mul_le_mul_left below hgrain
    rw [← Nat.mul_assoc] at hsize
    omega

end Double

end Segue
