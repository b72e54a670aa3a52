import Segue.Numeral.Reading
import Segue.Proofs.Double.Errors
import Segue.Proofs.Json.Doubles

/-!
Decimal numbers as the nearest doubles. Main statement: digits with so many of them behind a point
are read as what they stand for, rounded once, and as infinite just when that is too large for a
double. Sums and whole multiples of doubles that are known up to their size are known so again.
-/

namespace Segue

namespace Double

open Float.Model (Format UnpackedFloat)
open Float.Model.UnpackedFloat

/-- A double of so many units, which is not finite just when they are too many. -/
structure IsNearest (x : Float) (size : Nat) : Prop where
  isFinite_iff : x.isFinite = true ↔ size < overflow
  units_eq : x.isFinite = true → units x = size

variable {x y : Float} {size other count : Nat}

theorem isNearest_pack {value : UnpackedFloat} (h : IsRounded value) (hsize : unitsOf value = size) :
    IsNearest (.ofModel (.pack value)) size := by
  have hunits : (Float.ofModel (.pack value)).isFinite = true → units (.ofModel (.pack value)) = size :=
    fun hfinite => (units_pack h hfinite).trans hsize
  exact ⟨⟨fun hfinite => count_lt_overflow hfinite (hunits hfinite),
    fun hlt => isFinite_pack h (by rwa [hsize, Int.natAbs_natCast])⟩, hunits⟩

theorem isNearest_of_isFinite (hx : x.isFinite = true) (hunits : units x = size) : IsNearest x size :=
  ⟨iff_of_true hx (count_lt_overflow hx hunits), fun _ => hunits⟩

theorem isNearest_of_overflow_le (hx : ¬ x.isFinite = true) (hsize : overflow ≤ size) : IsNearest x size :=
  ⟨iff_of_false hx hsize.not_gt, fun hfinite => absurd hfinite hx⟩

theorem overflow_le_rounded (h : overflow ≤ size) : overflow ≤ rounded size := by
  have hpow : ∀ m n : Nat, 2 ^ m * 2 ^ n = 2 ^ (m + n) := fun m n => (pow_add 2 m n).symm
  rw [overflow, hpow] at h ⊢
  exact le_rounded_of_pow h

theorem overflow_le_roundedRatio {above below : Nat} (hbelow : 0 < below) (h : overflow * below ≤ above) :
    overflow ≤ roundedRatio above below := by
  have hpow : ∀ m n : Nat, 2 ^ m * 2 ^ n = 2 ^ (m + n) := fun m n => (pow_add 2 m n).symm
  rw [overflow, hpow] at h ⊢
  exact le_roundedRatio_of_pow hbelow h

namespace IsNearest

theorem overflow_le (h : IsNearest x size) (hx : ¬ x.isFinite = true) : overflow ≤ size :=
  Nat.not_lt.mp (h.isFinite_iff.not.mp hx)

theorem add (h : IsNearest x size) (hother : IsNearest y other) : IsNearest (x + y) (rounded (size + other)) := by
  by_cases hboth : x.isFinite = true ∧ y.isFinite = true
  · obtain ⟨hrounded, hunits⟩ := unitsOf_add (isRegular_of_isFinite hboth.1) (isRegular_of_isFinite hboth.2)
    refine isNearest_pack hrounded (hunits.trans ?_)
    rw [← units, ← units, h.units_eq hboth.1, hother.units_eq hboth.2, ← Int.natCast_add, nearestUnits_natCast]
  · refine isNearest_of_overflow_le (fun hsum => hboth (finite_of_add hsum)) (overflow_le_rounded ?_)
    rcases not_and_or.mp hboth with hx | hy
    · exact (h.overflow_le hx).trans (Nat.le_add_right _ _)
    · exact (hother.overflow_le hy).trans (Nat.le_add_left _ _)

theorem mul (h : IsNearest x size) (hy : y.isFinite = true) (hcount : units y = (count * perOne : Nat))
    (hpositive : 0 < count) : IsNearest (x * y) (rounded (size * count)) := by
  by_cases hx : x.isFinite = true
  · obtain ⟨hrounded, hunits⟩ := unitsOf_mul (isRegular_of_isFinite hx) (isRegular_of_isFinite hy) hcount
    refine isNearest_pack hrounded (hunits.trans ?_)
    rw [← units, h.units_eq hx, ← Int.natCast_mul, nearestUnits_natCast]
  · refine isNearest_of_overflow_le (fun hproduct => hx (finite_of_mul hproduct).1) (overflow_le_rounded ?_)
    exact (h.overflow_le hx).trans (Nat.le_mul_of_pos_right _ hpositive)

end IsNearest

/-- A quotient of finite doubles from zero up. -/
theorem isNearest_div {divisor : Nat} (hx : x.isFinite = true) (hy : y.isFinite = true) (hsize : units x = size)
    (hdivisor : units y = divisor) (hpositive : 0 < divisor) :
    IsNearest (x / y) (roundedRatio (size * perOne) divisor) := by
  obtain ⟨hrounded, hunits⟩ :=
    unitsOf_div (isRegular_of_isFinite hx) (isRegular_of_isFinite hy) hsize hdivisor hpositive
  exact isNearest_pack hrounded hunits

/-- So small a power of ten is a double. -/
theorem powerOfTen_exact : ∀ (power : Nat) (h : power < Float.exactlyRepresentablePowersOfTen.size),
    (Float.exactlyRepresentablePowersOfTen[power]).isFinite = true ∧
      units Float.exactlyRepresentablePowersOfTen[power] = (10 ^ power * perOne : Nat) := by
  have hbits : ∀ (power : Nat) (h : power < Float.exactlyRepresentablePowersOfTen.size),
      (Float.exactlyRepresentablePowersOfTen[power]).isFinite = true ∧
        bitUnits Float.exactlyRepresentablePowersOfTen[power] = (10 ^ power * perOne : Nat) := by
    decide +kernel
  intro power h
  obtain ⟨hfinite, hunits⟩ := hbits power h
  exact ⟨hfinite, (units_eq_bitUnits hfinite).trans hunits⟩

variable {digits places : Nat}

theorem isNearest_ofScientific_whole (digits : Nat) :
    IsNearest (Float.ofScientific digits false 0) (rounded (digits * perOne)) := by
  by_cases hbits : digits < 2 ^ 53
  · obtain ⟨hfinite, hunits⟩ := ofNat_exact hbits
    rw [rounded_count hbits]
    exact isNearest_of_isFinite hfinite hunits
  · have heq : Float.ofScientific digits false 0 = Float.ofModel (.ofScientific digits (0 : Nat)) := by
      rw [Float.ofScientific, dif_neg (by omega)]
      rfl
    obtain ⟨hrounded, hunits⟩ := unitsOf_ofScientific (by omega : digits ≠ 0) (Nat.zero_le (2 ^ 11))
    rw [Nat.pow_zero, Nat.mul_one] at hunits
    rw [heq]
    exact isNearest_pack hrounded hunits

theorem sizeOf_zero (significand : Nat) : sizeOf significand 0 = significand * perOne := by
  rw [sizeOf_of_nonneg significand (Int.le_refl 0), Int.toNat_zero, Nat.pow_zero, Nat.mul_one]

/-- A power of ten that is no double is divided by before anything is rounded. -/
theorem unitsOf_ofScientific_places (hdigits : digits ≠ 0) (hplaces : places ≠ 0)
    (hmost : places ≤ 2 ^ 11 + digits.log2) :
    IsRounded (ofScientific Format.binary64 digits (-places)) ∧
      unitsOf (ofScientific Format.binary64 digits (-places)) =
        (roundedRatio (digits * perOne) (10 ^ places) : Nat) := by
  have hpower : 0 < 10 ^ places := Nat.pow_pos (by decide)
  have hbits : ((2 ^ Format.binary64.exponentBits : Nat) : Int) = 2 ^ 11 := rfl
  have hnotBeyond : ¬ ((2 ^ Format.binary64.exponentBits : Nat) : Int) < -places := by omega
  have hnotBelow : ¬ (-places : Int) < -((2 ^ 11 : Int) + digits.log2) := by omega
  have hnegative : ¬ (0 : Int) ≤ -places := by omega
  have hcount : (-(-places : Int)).toNat = places := by omega
  have hvalue : ofScientific Format.binary64 digits (-places) =
      div Format.binary64 (.finite .positive digits 0 (Nat.pos_of_ne_zero hdigits))
        (.finite .positive (10 ^ places) 0 hpower) := by
    rw [ofScientific, dif_neg hdigits, if_neg (by exact_mod_cast hnotBeyond), if_neg hnotBelow, if_neg hnegative]
    simp only [hcount]
  have hratio : roundedRatio (digits * perOne) (10 ^ places) =
      roundedRatio (sizeOf digits 0 * perOne) (sizeOf (10 ^ places) 0) := by
    rw [sizeOf_zero, sizeOf_zero, roundedRatio_mul_right _ _ perOne_pos]
  have hleast : (-1074 : Int) ≤ 0 := by decide
  rw [hvalue, hratio]
  exact unitsOf_divCore (Nat.pos_of_ne_zero hdigits) hpower hleast hleast .positive rfl

theorem isNearest_ofScientific_places (hdigits : digits ≠ 0) (hplaces : places ≠ 0)
    (hmost : places ≤ 2 ^ 11 + digits.log2) :
    IsNearest (Float.ofScientific digits true places) (roundedRatio (digits * perOne) (10 ^ places)) := by
  by_cases hsmall : digits < 2 ^ 53 ∧ places ≤ 22
  · have hsize : places < Float.exactlyRepresentablePowersOfTen.size := hsmall.2.trans_lt (by decide)
    have heq : Float.ofScientific digits true places =
        digits.toUInt64.toFloat / Float.exactlyRepresentablePowersOfTen[places] := by
      rw [Float.ofScientific, dif_pos hsmall]
      rfl
    have hword : digits.toUInt64.toNat = digits := Nat.mod_eq_of_lt (hsmall.1.trans (by decide))
    obtain ⟨hfinite, hunits⟩ := @toFloat_whole digits.toUInt64 (by rw [hword]; exact hsmall.1)
    obtain ⟨hdivisor, hdivisorUnits⟩ := powerOfTen_exact places hsize
    have hpower : 0 < 10 ^ places * perOne := Nat.mul_pos (Nat.pow_pos (by decide)) perOne_pos
    have hquotient := isNearest_div hfinite hdivisor hunits hdivisorUnits hpower
    rw [hword, roundedRatio_mul_right _ _ perOne_pos] at hquotient
    rw [heq]
    exact hquotient
  · have heq : Float.ofScientific digits true places = Float.ofModel (.ofScientific digits (Int.negOfNat places)) := by
      rw [Float.ofScientific, dif_neg hsmall]
      rfl
    obtain ⟨hrounded, hunits⟩ := unitsOf_ofScientific_places hdigits hplaces hmost
    rw [heq, Int.negOfNat_eq]
    exact isNearest_pack hrounded hunits

end Double

namespace Numeral

open Segue.Double

variable {digits places : Nat}

theorem lt_pow_digitCount (digits : Nat) : digits < 10 ^ digitCount digits := by
  have hcount := digitCount_pos digits
  rw [digitCount, ← String.length_toList, toList_toString] at hcount ⊢
  exact (Nat.length_toDigits_le_iff (by decide) hcount).mp (Nat.le_refl _)

theorem pow_digitCount_le (hdigits : digits ≠ 0) : 10 ^ (digitCount digits - 1) ≤ digits := by
  rcases Nat.lt_or_ge 1 (digitCount digits) with hmany | hone
  · exact pow_le_of_digitCount hmany
  · rw [Nat.sub_eq_zero_of_le hone, Nat.pow_zero]
    omega

theorem digitCount_le_log2 (hdigits : digits ≠ 0) : digitCount digits ≤ digits.log2 + 1 := by
  have hpow : 2 ^ (digitCount digits - 1) ≤ digits :=
    (Nat.pow_le_pow_left (by decide) _).trans (pow_digitCount_le hdigits)
  have hlog := (Nat.le_log2 hdigits).mpr hpow
  omega

/-- What lies so far from the digits is beyond the doubles, on either side. -/
theorem pow_lead_bounds {lead least : Nat} (hleast : least = 400) (h : least ≤ lead) :
    2 * perOne ≤ 10 ^ lead ∧ overflow ≤ 10 ^ lead * perOne := by
  have hbelow : 2 * perOne ≤ 10 ^ least := by
    subst hleast
    rw [perOne_eq]
    decide +kernel
  have habove : 2 ^ 1024 ≤ 10 ^ least := by
    subst hleast
    decide +kernel
  have hpow : 10 ^ least ≤ 10 ^ lead := Nat.pow_le_pow_right (by decide) h
  rw [overflow_eq]
  exact ⟨hbelow.trans hpow, Nat.mul_le_mul_right _ (habove.trans hpow)⟩

/-- So far behind the point nothing is left of digits. -/
theorem roundedRatio_of_lead_lt (h : digitCount digits + 400 < places) :
    roundedRatio (digits * perOne) (10 ^ places) = 0 := by
  obtain ⟨lead, rfl⟩ : ∃ lead, places = digitCount digits + lead := Nat.exists_eq_add_of_le (by omega)
  have hnone : 2 * (digits * perOne) ≤ 10 ^ (digitCount digits + lead) := by
    rw [Nat.mul_left_comm, Nat.pow_add]
    exact Nat.mul_le_mul (lt_pow_digitCount digits).le (pow_lead_bounds rfl (by omega)).1
  rwa [← Nat.not_lt, ← roundedRatio_pos_iff (Nat.pow_pos (by decide)), Nat.not_lt, Nat.le_zero] at hnone

/-- Digits that go on so far in front of the point are too large for a double. -/
theorem overflow_le_of_lt_lead (hdigits : digits ≠ 0) (h : places + 400 < digitCount digits) :
    overflow ≤ roundedRatio (digits * perOne) (10 ^ places) := by
  obtain ⟨lead, hlead⟩ : ∃ lead, digitCount digits - 1 = lead + places :=
    ⟨digitCount digits - 1 - places, by omega⟩
  have hpow := pow_digitCount_le hdigits
  rw [hlead, Nat.pow_add] at hpow
  refine overflow_le_roundedRatio (Nat.pow_pos (by decide)) ?_
  calc
    overflow * 10 ^ places ≤ 10 ^ lead * perOne * 10 ^ places :=
      Nat.mul_le_mul_right _ (pow_lead_bounds rfl (by omega)).2
    _ = 10 ^ lead * 10 ^ places * perOne := Nat.mul_right_comm _ _ _
    _ ≤ digits * perOne := Nat.mul_le_mul_right _ hpow

/-- Digits, so many of them behind the point, are read as what they stand for, rounded. -/
theorem isNearest_nearest (digits places : Nat) :
    IsNearest (nearest false digits (-places)) (roundedRatio (digits * perOne) (10 ^ places)) := by
  have hcount : (toString digits).length = digitCount digits := rfl
  have hplaces : (-(places : Int)).natAbs = places := by omega
  simp only [nearest, hcount, hplaces, if_neg Bool.false_ne_true]
  by_cases hnone : digits = 0 ∨ (-places : Int) + digitCount digits < -400
  · have hzero : roundedRatio (digits * perOne) (10 ^ places) = 0 := by
      rcases hnone with rfl | hlead
      · rw [Nat.zero_mul, roundedRatio_zero]
      · exact roundedRatio_of_lead_lt (by omega)
    rw [if_pos hnone, hzero]
    exact isNearest_of_isFinite rfl rfl
  obtain ⟨hdigits, hlead⟩ := not_or.mp hnone
  rw [if_neg hnone]
  by_cases hmany : 400 < (-places : Int) + digitCount digits
  · have hinfinite : ¬ (1.0 / 0.0 : Float).isFinite = true := by decide +kernel
    rw [if_pos hmany]
    exact isNearest_of_overflow_le hinfinite (overflow_le_of_lt_lead hdigits (by omega))
  rw [if_neg hmany]
  rcases Nat.eq_zero_or_pos places with rfl | hpositive
  · rw [Nat.pow_zero, ← Nat.mul_one (digits * perOne), roundedRatio_mul_self _ Nat.one_pos]
    exact isNearest_ofScientific_whole digits
  · have hbehind : decide (-(places : Int) < 0) = true := decide_eq_true (by omega)
    have hlog := digitCount_le_log2 hdigits
    rw [hbehind]
    exact isNearest_ofScientific_places hdigits hpositive.ne' (by omega)

theorem isNearest_nearest_whole (digits : Nat) :
    IsNearest (nearest false digits 0) (rounded (digits * perOne)) := by
  have hnearest := isNearest_nearest digits 0
  rwa [Nat.pow_zero, ← Nat.mul_one (digits * perOne), roundedRatio_mul_self _ Nat.one_pos] at hnearest

end Numeral

end Segue
