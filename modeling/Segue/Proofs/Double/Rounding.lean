import Mathlib
import Segue.Numeral.Fixed

/-!
How doubles round. A size is counted in units of the least positive double; rounding takes it to the
nearest multiple of a power of two that leaves fifty-three bits, a tie to the even one. Main
statement: that is what rounding a significand and an exponent gives.
-/

namespace Segue

open Float.Model (Format totalExponent UnpackedFloat)
open Float.Model.UnpackedFloat

namespace Numeral

theorem roundHalfEven_mul_right (above below : Nat) {scale : Nat} (hscale : 0 < scale) :
    roundHalfEven (above * scale) (below * scale) = roundHalfEven above below := by
  have hrest : 2 * (above * scale % (below * scale)) = 2 * (above % below) * scale := by
    rw [Nat.mul_mod_mul_right, Nat.mul_assoc]
  simp only [roundHalfEven, Nat.mul_div_mul_right _ _ hscale, hrest, Nat.mul_lt_mul_right hscale]

theorem roundHalfEven_mul_self (whole : Nat) {below : Nat} (hbelow : 0 < below) :
    roundHalfEven (whole * below) below = whole := by
  simp [roundHalfEven, Nat.mul_div_cancel _ hbelow, hbelow]

theorem le_roundHalfEven (above below : Nat) : above / below ≤ roundHalfEven above below := by
  simp only [roundHalfEven]
  split_ifs <;> omega

theorem roundHalfEven_le (above below : Nat) : roundHalfEven above below ≤ above / below + 1 := by
  simp only [roundHalfEven]
  split_ifs <;> omega

/-- Rounding keeps the order of fractions. -/
theorem roundHalfEven_mono {above greater : Nat} (h : above ≤ greater) (below : Nat) :
    roundHalfEven above below ≤ roundHalfEven greater below := by
  rcases Nat.lt_or_eq_of_le (Nat.div_le_div_right h (c := below)) with hlt | heq
  · exact (roundHalfEven_le above below).trans ((Nat.succ_le_of_lt hlt).trans (le_roundHalfEven greater below))
  · have hrest : above % below ≤ greater % below := by
      have habove := Nat.div_add_mod above below
      have hgreater := Nat.div_add_mod greater below
      rw [heq] at habove
      omega
    simp only [roundHalfEven, heq]
    split_ifs <;> omega

end Numeral

namespace Double

open Numeral (roundHalfEven)

/-- What is left of the whole part of a fraction behind so many dropped bits: the first of them, and
whether there is another. -/
theorem shiftRight_fraction (above : Nat) {below : Nat} (hbelow : 0 < below) (count : Nat) :
    ExtendedMantissa.ofMantissaAndAccuracy (above / below) (accuracyOfFraction (above % below) below) >>> count =
      { mantissa := above / (below * 2 ^ count)
        roundBit := decide (below * 2 ^ count ≤ 2 * (above % (below * 2 ^ count)))
        stickyBit := decide (2 * (above % (below * 2 ^ count)) % (below * 2 ^ count) ≠ 0) } := by
  induction count with
  | zero =>
      have hlt : above % below < below := Nat.mod_lt _ hbelow
      change ExtendedMantissa.ofMantissaAndAccuracy _ _ = _
      rw [Nat.pow_zero, Nat.mul_one, accuracyOfFraction]
      split
      · rename_i hexact
        simp [hexact, ExtendedMantissa.ofMantissaAndAccuracy, hbelow.ne']
      · rename_i hrest
        rcases Nat.lt_trichotomy (2 * (above % below)) below with hless | htie | hmore
        · have hsticky : above % below ≠ 0 := hrest
          simp [Nat.compare_eq_lt.mpr hless, ExtendedMantissa.ofMantissaAndAccuracy, hless, Nat.mod_eq_of_lt hless,
            hsticky]
        · simp [ExtendedMantissa.ofMantissaAndAccuracy, htie]
        · have hmod : 2 * (above % below) % below = 2 * (above % below) - below := by
            rw [Nat.mod_eq_sub_mod hmore.le, Nat.mod_eq_of_lt (by omega)]
          have hsticky : 2 * (above % below) - below ≠ 0 := by omega
          simp [Nat.compare_eq_gt.mpr hmore, ExtendedMantissa.ofMantissaAndAccuracy, hmore.le, hmod, hsticky]
  | succ count ih =>
      obtain ⟨scale, hscale⟩ : ∃ scale, scale = below * 2 ^ count := ⟨_, rfl⟩
      have hpositive : 0 < scale := hscale ▸ Nat.mul_pos hbelow (Nat.two_pow_pos count)
      have hdouble : below * 2 ^ (count + 1) = scale * 2 := by rw [hscale, Nat.pow_succ, Nat.mul_assoc]
      have hstep : ExtendedMantissa.ofMantissaAndAccuracy (above / below) (accuracyOfFraction (above % below) below) >>>
          (count + 1) = (ExtendedMantissa.ofMantissaAndAccuracy (above / below)
            (accuracyOfFraction (above % below) below) >>> count).shiftRightOne := rfl
      have hmod : above % (scale * 2) = above % scale + scale * (above / scale % 2) := Nat.mod_mul
      have hlt : above % scale < scale := Nat.mod_lt _ hpositive
      have hsticky : 2 * (above % (scale * 2)) % (scale * 2) = 2 * (above % scale) := by
        rw [Nat.mul_comm scale 2, Nat.mul_mod_mul_left, Nat.mod_mod_of_dvd _ ⟨2, Nat.mul_comm 2 scale⟩]
      rw [hstep, ih, ExtendedMantissa.shiftRightOne, ← hscale, hdouble, hsticky, Nat.div_div_eq_div_mul]
      congr 1
      · -- the bit that is dropped now is the lowest one that was left
        rw [hmod]
        rcases Nat.mod_two_eq_zero_or_one (above / scale) with hbit | hbit
        · simp [hbit]
          omega
        · simp [hbit]
          omega
      · by_cases hround : scale ≤ 2 * (above % scale)
        · simp [hround]
          omega
        · simp [hround, Nat.mod_eq_of_lt (Nat.lt_of_not_le hround)]

/-- What is left of a significand behind so many dropped bits: the first of them, and whether there
is another. -/
theorem shiftRight_exact (significand count : Nat) :
    ExtendedMantissa.ofMantissaAndAccuracy significand .exact >>> count =
      { mantissa := significand / 2 ^ count
        roundBit := decide (2 ^ count ≤ 2 * (significand % 2 ^ count))
        stickyBit := decide (2 * (significand % 2 ^ count) % 2 ^ count ≠ 0) } := by
  have hfraction := shiftRight_fraction significand Nat.one_pos count
  rw [Nat.div_one, Nat.mod_one, Nat.one_mul] at hfraction
  exact hfraction

/-- Dropping bits of a fraction rounds to the nearest multiple of a power of two. -/
theorem roundedMantissa_fraction (above : Nat) {below : Nat} (hbelow : 0 < below) (count : Nat) :
    (ExtendedMantissa.ofMantissaAndAccuracy (above / below) (accuracyOfFraction (above % below) below) >>>
      count).roundedMantissa = roundHalfEven above (below * 2 ^ count) := by
  have hpositive : 0 < below * 2 ^ count := Nat.mul_pos hbelow (Nat.two_pow_pos count)
  have hlt : above % (below * 2 ^ count) < below * 2 ^ count := Nat.mod_lt _ hpositive
  rw [shiftRight_fraction above hbelow, roundHalfEven]
  generalize above % (below * 2 ^ count) = rest at hlt ⊢
  generalize below * 2 ^ count = below at hlt ⊢
  by_cases hround : below ≤ 2 * rest
  · have hmod : 2 * rest % below = 2 * rest - below := by
      rw [Nat.mod_eq_sub_mod hround, Nat.mod_eq_of_lt (by omega)]
    rcases Nat.lt_or_eq_of_le hround with habove | htie
    · have hsticky : 2 * rest % below ≠ 0 := by omega
      simp [ExtendedMantissa.roundedMantissa, ExtendedMantissa.accuracy, Accuracy.roundToNearestEven, hround, hsticky,
        habove, habove.not_gt]
    · simp [ExtendedMantissa.roundedMantissa, ExtendedMantissa.accuracy, Accuracy.roundToNearestEven, htie]
  · have hmod : 2 * rest % below = 2 * rest := Nat.mod_eq_of_lt (Nat.lt_of_not_le hround)
    by_cases hzero : rest = 0
    · have hpositive : 0 < below := hzero ▸ hlt
      simp [ExtendedMantissa.roundedMantissa, ExtendedMantissa.accuracy, Accuracy.roundToNearestEven, hzero, hpositive,
        hpositive.ne']
    · simp [ExtendedMantissa.roundedMantissa, ExtendedMantissa.accuracy, Accuracy.roundToNearestEven, hround, hmod,
        hzero, Nat.lt_of_not_le hround]

/-- The distance between neighbouring doubles at a size. -/
def grain (size : Nat) : Nat := 2 ^ (size.log2 - 52)

/-- The size of the double nearest to a size. -/
def rounded (size : Nat) : Nat := roundHalfEven size (grain size) * grain size

theorem grain_pos (size : Nat) : 0 < grain size := Nat.two_pow_pos _

theorem lt_two_pow_log2 (size : Nat) : size < 2 ^ (size.log2 + 1) := Nat.lt_log2_self

theorem log2_mul_two_pow {size : Nat} (hsize : size ≠ 0) (shift : Nat) :
    (size * 2 ^ shift).log2 = size.log2 + shift := by
  have hne : size * 2 ^ shift ≠ 0 := Nat.mul_ne_zero hsize (Nat.two_pow_pos shift).ne'
  rw [Nat.log2_eq_iff hne]
  constructor
  · rw [Nat.pow_add]
    exact Nat.mul_le_mul_right _ (Nat.log2_self_le hsize)
  · rw [Nat.add_right_comm, Nat.pow_add]
    exact Nat.mul_lt_mul_of_pos_right (lt_two_pow_log2 size) (Nat.two_pow_pos shift)

theorem log2_mono {size greater : Nat} (h : size ≤ greater) : size.log2 ≤ greater.log2 := by
  by_cases hsize : size = 0
  · rw [hsize, Nat.log2_zero]
    exact Nat.zero_le _
  · have hgreater : greater ≠ 0 := by omega
    exact (Nat.le_log2 hgreater).mpr ((Nat.log2_self_le hsize).trans h)

theorem rounded_le_of_dvd {size bound : Nat} (hdvd : grain size ∣ bound) (h : size ≤ bound) : rounded size ≤ bound := by
  obtain ⟨count, rfl⟩ := hdvd
  rw [Nat.mul_comm] at h ⊢
  have hcount := Numeral.roundHalfEven_mono h (grain size)
  rw [Numeral.roundHalfEven_mul_self count (grain_pos size)] at hcount
  exact Nat.mul_le_mul_right _ hcount

theorem le_rounded_of_dvd {size bound : Nat} (hdvd : grain size ∣ bound) (h : bound ≤ size) : bound ≤ rounded size := by
  obtain ⟨count, rfl⟩ := hdvd
  rw [Nat.mul_comm] at h ⊢
  have hcount := Numeral.roundHalfEven_mono h (grain size)
  rw [Numeral.roundHalfEven_mul_self count (grain_pos size)] at hcount
  exact Nat.mul_le_mul_right _ hcount

theorem rounded_of_dvd {size : Nat} (h : grain size ∣ size) : rounded size = size :=
  Nat.le_antisymm (rounded_le_of_dvd h (Nat.le_refl size)) (le_rounded_of_dvd h (Nat.le_refl size))

/-- Fifty-three bits in front of zeros are left as they are. -/
theorem rounded_mul_two_pow {significand : Nat} (h : significand < 2 ^ 53) (shift : Nat) :
    rounded (significand * 2 ^ shift) = significand * 2 ^ shift := by
  by_cases hzero : significand = 0
  · rw [hzero, Nat.zero_mul]
    rfl
  · have hlog : significand.log2 < 53 := (Nat.log2_lt hzero).mpr h
    apply rounded_of_dvd
    rw [grain, log2_mul_two_pow hzero]
    exact Nat.dvd_mul_left_of_dvd (Nat.pow_dvd_pow 2 (by omega)) _

theorem le_rounded_of_pow {size bits : Nat} (h : 2 ^ bits ≤ size) : 2 ^ bits ≤ rounded size := by
  have hsize : size ≠ 0 := fun hzero => absurd (hzero ▸ h) (Nat.two_pow_pos bits).not_ge
  have hbits : bits ≤ size.log2 := (Nat.le_log2 hsize).mpr h
  exact (Nat.pow_le_pow_right (by decide) hbits).trans
    (le_rounded_of_dvd (Nat.pow_dvd_pow 2 (Nat.sub_le _ _)) (Nat.log2_self_le hsize))

theorem rounded_le_of_pow {size bits : Nat} (h : size ≤ 2 ^ bits) : rounded size ≤ 2 ^ bits := by
  have hbits : size.log2 ≤ bits := (log2_mono h).trans_eq Nat.log2_two_pow
  exact rounded_le_of_dvd (Nat.pow_dvd_pow 2 ((Nat.sub_le _ _).trans hbits)) h

/-- Rounding keeps the order of sizes. -/
theorem rounded_mono {size greater : Nat} (h : size ≤ greater) : rounded size ≤ rounded greater := by
  rcases Nat.lt_or_eq_of_le (log2_mono h) with hlt | heq
  · -- a power of two lies between them, and that is a double
    have hbelow : rounded size ≤ 2 ^ (size.log2 + 1) := rounded_le_of_pow (lt_two_pow_log2 size).le
    have hgreater : greater ≠ 0 := by
      rintro rfl
      exact Nat.not_lt_zero _ hlt
    have habove : 2 ^ (size.log2 + 1) ≤ rounded greater :=
      le_rounded_of_pow ((Nat.pow_le_pow_right (by decide) hlt).trans (Nat.log2_self_le hgreater))
    exact hbelow.trans habove
  · have hgrain : grain size = grain greater := by rw [grain, grain, heq]
    rw [rounded, rounded, hgrain]
    exact Nat.mul_le_mul_right _ (Numeral.roundHalfEven_mono h _)

/-- A significand and an exponent that a double has: fifty-three bits, the first of which is zero
only where the exponent is the least one. -/
structure IsCanonical (significand : Nat) (exponent : Int) : Prop where
  lt : significand < 2 ^ 53
  least : -1074 ≤ exponent
  normal : 2 ^ 52 ≤ significand ∨ exponent = -1074

def sizeOf (significand : Nat) (exponent : Int) : Nat := significand * 2 ^ (exponent + 1074).toNat

theorem targetExponent_eq (significand : Nat) (exponent : Int) :
    Format.binary64.targetExponent (totalExponent significand exponent) =
      max (significand.log2 + exponent - 52) (-1074) := by
  simp only [Format.targetExponent, totalExponent, Format.mantissaBits, Format.minExponent]
  omega

theorem shiftToTargetExponent_eq {significand : Nat} {exponent target : Int} (accuracy : Accuracy) (count : Nat)
    (htarget : Format.binary64.targetExponent (totalExponent significand exponent) = target)
    (hcount : (target - exponent).toNat = count) :
    shiftToTargetExponent Format.binary64 significand exponent accuracy =
      (ExtendedMantissa.ofMantissaAndAccuracy significand accuracy >>> count, exponent + count) := by
  rw [shiftToTargetExponent, htarget, shiftToExponent, hcount]

theorem roundWithAccuracy_eq {significand : Nat} {exponent middle final : Int} {accuracy : Accuracy}
    {first second : ExtendedMantissa} (sign : Sign)
    (hfirst : shiftToTargetExponent Format.binary64 significand exponent accuracy = (first, middle))
    (hsecond : shiftToTargetExponent Format.binary64 first.roundedMantissa middle .exact = (second, final))
    (hpositive : 0 < second.mantissa) :
    roundWithAccuracy Format.binary64 sign significand exponent accuracy =
      .finite sign second.mantissa final hpositive := by
  simp only [roundWithAccuracy, hfirst, hsecond]
  exact dif_neg hpositive.ne'

theorem roundHalfEven_le_two_pow {above below count : Nat} (hbelow : 0 < below)
    (h : (above / below).log2 ≤ 52 + count) : roundHalfEven above (below * 2 ^ count) ≤ 2 ^ 53 := by
  have hlt : above / below < 2 ^ 53 * 2 ^ count := by
    rw [← Nat.pow_add]
    exact (lt_two_pow_log2 _).trans_le (Nat.pow_le_pow_right (by decide) (by omega))
  have hle : above ≤ 2 ^ 53 * (below * 2 ^ count) := by
    rw [Nat.mul_left_comm, Nat.mul_comm below]
    exact ((Nat.div_lt_iff_lt_mul hbelow).mp hlt).le
  have hpositive : 0 < below * 2 ^ count := Nat.mul_pos hbelow (Nat.two_pow_pos count)
  exact (Numeral.roundHalfEven_mono hle _).trans_eq (Numeral.roundHalfEven_mul_self _ hpositive)

theorem two_pow_le_roundHalfEven {above below count : Nat} (hbelow : 0 < below)
    (h : (above / below).log2 = 52 + count) : 2 ^ 52 ≤ roundHalfEven above (below * 2 ^ count) := by
  have hne : above / below ≠ 0 := by
    intro hzero
    rw [hzero, Nat.log2_zero] at h
    omega
  have hbits := Nat.log2_self_le hne
  rw [h, Nat.pow_add, Nat.le_div_iff_mul_le hbelow, Nat.mul_assoc, Nat.mul_comm (2 ^ count)] at hbits
  have hpositive : 0 < below * 2 ^ count := Nat.mul_pos hbelow (Nat.two_pow_pos count)
  exact (Numeral.roundHalfEven_mul_self _ hpositive).symm.trans_le (Numeral.roundHalfEven_mono hbits _)

/-- Dropping as many bits of a fraction as are too many leaves the nearest significand, and a carry
moves the exponent. -/
theorem roundWithAccuracy_fraction {above below : Nat} {exponent target : Int} (sign : Sign) (count : Nat)
    (hbelow : 0 < below) (htarget : target = max ((above / below).log2 + exponent - 52) (-1074))
    (hcount : target = exponent + count) (hpositive : 0 < roundHalfEven above (below * 2 ^ count)) :
    ∃ left final hleft, roundWithAccuracy Format.binary64 sign (above / below) exponent
        (accuracyOfFraction (above % below) below) = .finite sign left final hleft ∧ IsCanonical left final ∧
      sizeOf left final = sizeOf (roundHalfEven above (below * 2 ^ count)) target := by
  have hfirst : shiftToTargetExponent Format.binary64 (above / below) exponent
      (accuracyOfFraction (above % below) below) = (ExtendedMantissa.ofMantissaAndAccuracy (above / below)
        (accuracyOfFraction (above % below) below) >>> count, target) := by
    rw [hcount]
    exact shiftToTargetExponent_eq _ count ((targetExponent_eq _ exponent).trans htarget.symm) (by omega)
  have hupper : roundHalfEven above (below * 2 ^ count) ≤ 2 ^ 53 := roundHalfEven_le_two_pow hbelow (by omega)
  have hlower : target ≠ -1074 → 2 ^ 52 ≤ roundHalfEven above (below * 2 ^ count) :=
    fun _ => two_pow_le_roundHalfEven hbelow (by omega)
  have hleast : -1074 ≤ target := by omega
  rw [← roundedMantissa_fraction above hbelow] at hupper hlower hpositive ⊢
  obtain ⟨first, hshifted⟩ : ∃ first, first = ExtendedMantissa.ofMantissaAndAccuracy (above / below)
      (accuracyOfFraction (above % below) below) >>> count := ⟨_, rfl⟩
  rw [← hshifted] at hfirst hupper hlower hpositive ⊢
  rcases Nat.lt_or_eq_of_le hupper with hlt | hcarry
  · have hlog : first.roundedMantissa.log2 < 53 := (Nat.log2_lt hpositive.ne').mpr hlt
    have hsecond := shiftToTargetExponent_eq .exact 0 (targetExponent_eq first.roundedMantissa target) (by omega)
    rw [Nat.cast_zero, add_zero] at hsecond
    refine ⟨_, _, hpositive, roundWithAccuracy_eq sign hfirst hsecond hpositive, ⟨hlt, hleast, ?_⟩, rfl⟩
    by_cases h : target = -1074
    · exact .inr h
    · exact .inl (hlower h)
  · have hlog : first.roundedMantissa.log2 = 53 := by rw [hcarry, Nat.log2_two_pow]
    have hsecond : shiftToTargetExponent Format.binary64 first.roundedMantissa target .exact =
        ({ mantissa := 2 ^ 52, roundBit := false, stickyBit := false }, target + 1) := by
      rw [shiftToTargetExponent_eq .exact 1 (targetExponent_eq first.roundedMantissa target) (by omega), hcarry]
      rfl
    refine ⟨2 ^ 52, target + 1, by decide, roundWithAccuracy_eq sign hfirst hsecond (by decide),
      ⟨by decide, by omega, .inl (Nat.le_refl _)⟩, ?_⟩
    have hexponent : (target + 1 + 1074).toNat = (target + 1074).toNat + 1 := by omega
    rw [sizeOf, sizeOf, hcarry, hexponent, Nat.pow_succ]
    ring

/-- A fraction of which nothing is left is a zero. -/
theorem roundWithAccuracy_zero {above below : Nat} {exponent target : Int} (sign : Sign) (count : Nat)
    (hbelow : 0 < below) (htarget : target = max ((above / below).log2 + exponent - 52) (-1074))
    (hcount : target = exponent + count) (hzero : roundHalfEven above (below * 2 ^ count) = 0) :
    roundWithAccuracy Format.binary64 sign (above / below) exponent (accuracyOfFraction (above % below) below) =
      .zero sign := by
  have hfirst := shiftToTargetExponent_eq (accuracyOfFraction (above % below) below) count
    ((targetExponent_eq (above / below) exponent).trans htarget.symm) (by omega)
  rw [← roundedMantissa_fraction above hbelow] at hzero
  simp only [roundWithAccuracy, hfirst, hzero]
  refine dif_pos ?_
  simp [shiftToTargetExponent, shiftToExponent, shiftRight_exact]

theorem rounded_pos {size : Nat} (hsize : size ≠ 0) : 0 < roundHalfEven size (grain size) := by
  have hgrain : grain size ≤ size :=
    (Nat.pow_le_pow_right (by decide) (Nat.sub_le _ _)).trans (Nat.log2_self_le hsize)
  exact (Nat.div_pos hgrain (grain_pos size)).trans_le (Numeral.le_roundHalfEven _ _)

/-- Rounding a significand and an exponent rounds its size, when the exponent need not be lowered
for that. -/
theorem roundWithAccuracy_size {significand size : Nat} {exponent : Int} (sign : Sign) (up down : Nat)
    (hsize : size ≠ 0) (heq : size * 2 ^ down = significand * 2 ^ up) (hexponent : exponent = up - down - 1074)
    (hle : exponent ≤ max (significand.log2 + exponent - 52) (-1074)) :
    ∃ left final hleft, roundWithAccuracy Format.binary64 sign significand exponent .exact =
        .finite sign left final hleft ∧ IsCanonical left final ∧ sizeOf left final = rounded size := by
  have hsignificand : significand ≠ 0 := by
    rintro rfl
    rw [Nat.zero_mul] at heq
    exact (Nat.mul_ne_zero hsize (Nat.two_pow_pos down).ne') heq
  have hlog : size.log2 + down = significand.log2 + up := by
    rw [← log2_mul_two_pow hsize, heq, log2_mul_two_pow hsignificand]
  obtain ⟨count, hcount⟩ : ∃ count : Nat, count + up = size.log2 - 52 + down :=
    ⟨size.log2 - 52 + down - up, by omega⟩
  have hsame : roundHalfEven significand (2 ^ count) = roundHalfEven size (grain size) := by
    calc
      roundHalfEven significand (2 ^ count) = roundHalfEven (significand * 2 ^ up) (2 ^ count * 2 ^ up) :=
        (Numeral.roundHalfEven_mul_right _ _ (Nat.two_pow_pos up)).symm
      _ = roundHalfEven (size * 2 ^ down) (grain size * 2 ^ down) := by
        rw [← heq, grain, ← Nat.pow_add, ← Nat.pow_add, hcount]
      _ = roundHalfEven size (grain size) := Numeral.roundHalfEven_mul_right _ _ (Nat.two_pow_pos down)
  have htarget : ((size.log2 - 52 : Nat) - 1074 : Int) = max ((significand / 1).log2 + exponent - 52) (-1074) := by
    rw [Nat.div_one]
    omega
  have hfraction : roundHalfEven significand (1 * 2 ^ count) = roundHalfEven significand (2 ^ count) := by
    rw [Nat.one_mul]
  have hpositive : 0 < roundHalfEven significand (1 * 2 ^ count) := by
    rw [hfraction, hsame]
    exact rounded_pos hsize
  obtain ⟨left, final, hleft, hround, hcanonical, hfinal⟩ :=
    roundWithAccuracy_fraction sign count Nat.one_pos htarget (by omega) hpositive
  rw [Nat.div_one, Nat.mod_one] at hround
  rw [hfraction] at hfinal
  refine ⟨left, final, hleft, hround, hcanonical, ?_⟩
  rw [hfinal, hsame, sizeOf, rounded, Int.sub_add_cancel, Int.toNat_natCast]
  rfl

/-- Rounding a significand and an exponent rounds its size. -/
theorem round_size {significand size : Nat} {exponent : Int} (sign : Sign) (up down : Nat) (hsize : size ≠ 0)
    (heq : size * 2 ^ down = significand * 2 ^ up) (hexponent : exponent = up - down - 1074) :
    ∃ left final hleft, round Format.binary64 sign significand exponent = .finite sign left final hleft ∧
      IsCanonical left final ∧ sizeOf left final = rounded size := by
  have hsignificand : significand ≠ 0 := by
    rintro rfl
    rw [Nat.zero_mul] at heq
    exact (Nat.mul_ne_zero hsize (Nat.two_pow_pos down).ne') heq
  simp only [UnpackedFloat.round, decreaseExponent, targetExponent_eq, Nat.shiftLeft_eq]
  obtain ⟨lower, hlower⟩ : ∃ lower, lower = (exponent - max (significand.log2 + exponent - 52) (-1074)).toNat :=
    ⟨_, rfl⟩
  rw [← hlower]
  refine roundWithAccuracy_size sign up (down + lower) hsize ?_ (by omega) ?_
  · rw [Nat.pow_add, ← Nat.mul_assoc, heq]
    ring
  · rw [log2_mul_two_pow hsignificand]
    omega

end Double

end Segue
