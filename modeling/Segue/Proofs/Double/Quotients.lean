import Segue.Proofs.Double.Arithmetic

/-!
Quotients of doubles. Main statements: a quotient of doubles from zero up has the units of the exact
result, rounded, so that it keeps the order of what is divided; it is never undefined while the
divisor is positive; and a count is a double, rounded.
-/

namespace Segue.Double

open Float.Model (Format totalExponent UnpackedFloat)
open Float.Model.UnpackedFloat
open Numeral (roundHalfEven)

/-- The size of the double nearest to a quotient of sizes. -/
def roundedRatio (above below : Nat) : Nat :=
  roundHalfEven above (below * grain (above / below)) * grain (above / below)

section Ratio

variable {above greater below bound : Nat}

theorem roundedRatio_le_of_dvd (hbelow : 0 < below) (hdvd : grain (above / below) ∣ bound)
    (h : above ≤ bound * below) : roundedRatio above below ≤ bound := by
  obtain ⟨count, rfl⟩ := hdvd
  have hpositive : 0 < below * grain (above / below) := Nat.mul_pos hbelow (grain_pos _)
  have hle : above ≤ count * (below * grain (above / below)) := by
    refine h.trans_eq ?_
    ring
  have hcount := Numeral.roundHalfEven_mono hle (below * grain (above / below))
  rw [Numeral.roundHalfEven_mul_self count hpositive] at hcount
  rw [Nat.mul_comm (grain _)]
  exact Nat.mul_le_mul_right _ hcount

theorem le_roundedRatio_of_dvd (hbelow : 0 < below) (hdvd : grain (above / below) ∣ bound)
    (h : bound * below ≤ above) : bound ≤ roundedRatio above below := by
  obtain ⟨count, rfl⟩ := hdvd
  have hpositive : 0 < below * grain (above / below) := Nat.mul_pos hbelow (grain_pos _)
  have hle : count * (below * grain (above / below)) ≤ above := by
    refine Nat.le_trans (Nat.le_of_eq ?_) h
    ring
  have hcount := Numeral.roundHalfEven_mono hle (below * grain (above / below))
  rw [Numeral.roundHalfEven_mul_self count hpositive] at hcount
  rw [Nat.mul_comm (grain _)]
  exact Nat.mul_le_mul_right _ hcount

theorem roundedRatio_le_of_pow (hbelow : 0 < below) {bits : Nat} (h : above ≤ 2 ^ bits * below) :
    roundedRatio above below ≤ 2 ^ bits := by
  have hquotient : above / below ≤ 2 ^ bits := Nat.div_le_of_le_mul (h.trans_eq (Nat.mul_comm _ _))
  have hbits : (above / below).log2 ≤ bits := (log2_mono hquotient).trans_eq Nat.log2_two_pow
  exact roundedRatio_le_of_dvd hbelow (Nat.pow_dvd_pow 2 ((Nat.sub_le _ _).trans hbits)) h

theorem roundedRatio_le_perOne (hbelow : 0 < below) (h : above ≤ perOne * below) :
    roundedRatio above below ≤ perOne := by
  have hpow := @roundedRatio_le_of_pow above below hbelow 1074
  rw [← perOne_eq] at hpow
  exact hpow h

theorem le_roundedRatio_of_pow (hbelow : 0 < below) {bits : Nat} (h : 2 ^ bits * below ≤ above) :
    2 ^ bits ≤ roundedRatio above below := by
  have hquotient : 2 ^ bits ≤ above / below := (Nat.le_div_iff_mul_le hbelow).mpr h
  have hne : above / below ≠ 0 := ((Nat.two_pow_pos bits).trans_le hquotient).ne'
  have hbits : bits ≤ (above / below).log2 := (Nat.le_log2 hne).mpr hquotient
  have hlog : 2 ^ (above / below).log2 * below ≤ above :=
    (Nat.le_div_iff_mul_le hbelow).mp (Nat.log2_self_le hne)
  exact (Nat.pow_le_pow_right (by decide) hbits).trans
    (le_roundedRatio_of_dvd hbelow (Nat.pow_dvd_pow 2 (Nat.sub_le _ _)) hlog)

/-- Rounding keeps the order of quotients with one divisor. -/
theorem roundedRatio_mono (hbelow : 0 < below) (h : above ≤ greater) :
    roundedRatio above below ≤ roundedRatio greater below := by
  have hquotients : above / below ≤ greater / below := Nat.div_le_div_right h
  rcases Nat.lt_or_eq_of_le (log2_mono hquotients) with hlt | heq
  · -- a power of two lies between them, and that is a double
    have hupper : above ≤ 2 ^ ((above / below).log2 + 1) * below :=
      ((Nat.div_lt_iff_lt_mul hbelow).mp (lt_two_pow_log2 _)).le
    have hne : greater / below ≠ 0 := by
      intro hzero
      rw [hzero, Nat.log2_zero] at hlt
      exact Nat.not_lt_zero _ hlt
    have hlower : 2 ^ ((above / below).log2 + 1) * below ≤ greater :=
      (Nat.le_div_iff_mul_le hbelow).mp ((Nat.pow_le_pow_right (by decide) hlt).trans (Nat.log2_self_le hne))
    exact (roundedRatio_le_of_pow hbelow hupper).trans (le_roundedRatio_of_pow hbelow hlower)
  · have hgrain : grain (above / below) = grain (greater / below) := by rw [grain, grain, heq]
    rw [roundedRatio, roundedRatio, hgrain]
    exact Nat.mul_le_mul_right _ (Numeral.roundHalfEven_mono h _)

theorem roundedRatio_mul_right (above below : Nat) {scale : Nat} (hscale : 0 < scale) :
    roundedRatio (above * scale) (below * scale) = roundedRatio above below := by
  rw [roundedRatio, roundedRatio, Nat.mul_div_mul_right _ _ hscale, Nat.mul_right_comm below,
    Numeral.roundHalfEven_mul_right _ _ hscale]

theorem roundedRatio_zero (below : Nat) : roundedRatio 0 below = 0 := by
  rw [roundedRatio, Nat.zero_div]
  simp [roundHalfEven]

theorem log2_div_two_pow (size count : Nat) : (size / 2 ^ count).log2 = size.log2 - count := by
  rcases Nat.lt_or_ge size (2 ^ count) with hlt | hle
  · rw [Nat.div_eq_of_lt hlt, Nat.log2_zero]
    rcases Nat.eq_zero_or_pos size with rfl | hpositive
    · simp
    · have hlog := (Nat.log2_lt hpositive.ne').mpr hlt
      omega
  · have hquotient : size / 2 ^ count ≠ 0 := (Nat.div_pos hle (Nat.two_pow_pos count)).ne'
    have hsize : size ≠ 0 := ((Nat.two_pow_pos count).trans_le hle).ne'
    have hcount : count ≤ size.log2 := (Nat.le_log2 hsize).mpr hle
    have hsplit : 2 ^ (size.log2 - count) * 2 ^ count = 2 ^ size.log2 := by
      rw [← Nat.pow_add, Nat.sub_add_cancel hcount]
    rw [Nat.log2_eq_iff hquotient, Nat.le_div_iff_mul_le (Nat.two_pow_pos count),
      Nat.div_lt_iff_lt_mul (Nat.two_pow_pos count), Nat.pow_succ, Nat.mul_right_comm, hsplit, ← Nat.pow_succ]
    exact ⟨Nat.log2_self_le hsize, lt_two_pow_log2 size⟩

theorem log2_mul_div (hbelow : 0 < below) (hne : above / below ≠ 0) (count : Nat) :
    (above * 2 ^ count / below).log2 = (above / below).log2 + count := by
  have hlower : 2 ^ (above / below).log2 * below ≤ above :=
    (Nat.le_div_iff_mul_le hbelow).mp (Nat.log2_self_le hne)
  have hupper : above < 2 ^ ((above / below).log2 + 1) * below :=
    (Nat.div_lt_iff_lt_mul hbelow).mp (lt_two_pow_log2 _)
  have hle : above / below ≤ above * 2 ^ count / below :=
    Nat.div_le_div_right (Nat.le_mul_of_pos_right _ (Nat.two_pow_pos count))
  have hquotient : above * 2 ^ count / below ≠ 0 := ((Nat.pos_of_ne_zero hne).trans_le hle).ne'
  rw [Nat.log2_eq_iff hquotient, Nat.le_div_iff_mul_le hbelow, Nat.div_lt_iff_lt_mul hbelow, Nat.add_right_comm,
    Nat.pow_add, Nat.pow_add 2 (_ + 1), Nat.mul_right_comm, Nat.mul_right_comm (2 ^ (_ + 1))]
  exact ⟨Nat.mul_le_mul_right _ hlower, Nat.mul_lt_mul_of_pos_right hupper (Nat.two_pow_pos count)⟩

end Ratio

/-- Rounding a fraction with an exponent rounds its size, when the exponent need not be lowered for
that. -/
theorem roundWithAccuracy_ratio {above below : Nat} {exponent : Int} (sign : Sign) (up down : Nat)
    (hbelow : 0 < below) (hexponent : exponent = up - down - 1074)
    (hscale : up = 0 ∨ down = 0 ∧ above / below ≠ 0)
    (hle : exponent ≤ max ((above / below).log2 + exponent - 52) (-1074)) :
    IsRounded (roundWithAccuracy Format.binary64 sign (above / below) exponent
        (accuracyOfFraction (above % below) below)) ∧
      unitsOf (roundWithAccuracy Format.binary64 sign (above / below) exponent
        (accuracyOfFraction (above % below) below)) =
          sign.apply (roundedRatio (above * 2 ^ up) (below * 2 ^ down)) := by
  obtain ⟨target, htarget⟩ : ∃ target, target = max ((above / below).log2 + exponent - 52) (-1074) := ⟨_, rfl⟩
  obtain ⟨count, hcount⟩ : ∃ count : Nat, target = exponent + count := ⟨(target - exponent).toNat, by omega⟩
  have hlog : (above * 2 ^ up / (below * 2 ^ down)).log2 - 52 = (above / below).log2 + up - down - 52 := by
    rcases hscale with rfl | ⟨rfl, hne⟩
    · rw [Nat.pow_zero, Nat.mul_one, ← Nat.div_div_eq_div_mul, log2_div_two_pow, Nat.add_zero]
    · rw [Nat.pow_zero, Nat.mul_one, log2_mul_div hbelow hne, Nat.sub_zero]
  have hgrain : grain (above * 2 ^ up / (below * 2 ^ down)) = 2 ^ (target + 1074).toNat := by
    rw [grain, hlog]
    congr 1
    omega
  have hsame : roundHalfEven (above * 2 ^ up) (below * 2 ^ down * 2 ^ (target + 1074).toNat) =
      roundHalfEven above (below * 2 ^ count) := by
    have hshift : down + (target + 1074).toNat = count + up := by omega
    rw [Nat.mul_assoc below, ← Nat.pow_add, hshift, Nat.pow_add, ← Nat.mul_assoc]
    exact Numeral.roundHalfEven_mul_right _ _ (Nat.two_pow_pos up)
  have hratio : roundedRatio (above * 2 ^ up) (below * 2 ^ down) =
      sizeOf (roundHalfEven above (below * 2 ^ count)) target := by
    rw [roundedRatio, hgrain, hsame, sizeOf]
  rw [hratio]
  rcases Nat.eq_zero_or_pos (roundHalfEven above (below * 2 ^ count)) with hzero | hpositive
  · rw [roundWithAccuracy_zero sign count hbelow htarget hcount hzero, hzero, sizeOf, Nat.zero_mul]
    refine ⟨trivial, ?_⟩
    cases sign <;> rfl
  · obtain ⟨left, final, hleft, hround, hcanonical, hfinal⟩ :=
      roundWithAccuracy_fraction sign count hbelow htarget hcount hpositive
    rw [hround, ← hfinal]
    exact ⟨hcanonical, rfl⟩

/-! ### Division -/

/-- The quotient of two sizes is brought to as many bits as are needed to round it. -/
theorem unitsOf_divCore {significand significand' : Nat} {exponent exponent' : Int} (hpositive : 0 < significand)
    (hpositive' : 0 < significand') (hleast : -1074 ≤ exponent) (hleast' : -1074 ≤ exponent') (sign : Sign)
    {quotient : Nat} {lower : Int} {accuracy : Accuracy}
    (hcore : divCore Format.binary64 significand exponent significand' exponent' = (quotient, lower, accuracy)) :
    IsRounded (roundWithAccuracy Format.binary64 sign quotient lower accuracy) ∧
      unitsOf (roundWithAccuracy Format.binary64 sign quotient lower accuracy) =
        sign.apply (roundedRatio (sizeOf significand exponent * perOne) (sizeOf significand' exponent')) := by
  simp only [divCore, Nat.shiftLeft_eq, Prod.mk.injEq] at hcore
  obtain ⟨rfl, hlower, rfl⟩ := hcore
  obtain ⟨shift, hshift⟩ : ∃ shift : Nat, (shift : Int) = exponent - exponent' - lower :=
    ⟨(exponent - exponent' - lower).toNat, by omega⟩
  have hamount : (exponent - exponent' - lower).toNat = shift := by omega
  rw [hlower, hamount]
  -- with an exponent above the least one there are bits enough in the quotient
  have hbits : -1074 < lower → 2 ^ 52 ≤ significand * 2 ^ shift / significand' := by
    intro hlarge
    have htarget : Format.binary64.targetExponent
        (totalExponent significand exponent - totalExponent significand' exponent') =
          max ((significand.log2 : Int) + exponent - (significand'.log2 + exponent') - 53) (-1074) := by
      simp only [Format.targetExponent, totalExponent, Format.mantissaBits, Format.minExponent]
      omega
    have hamount : significand'.log2 + 53 ≤ significand.log2 + shift := by omega
    rw [Nat.le_div_iff_mul_le hpositive']
    calc
      2 ^ 52 * significand' ≤ 2 ^ 52 * 2 ^ (significand'.log2 + 1) :=
        Nat.mul_le_mul_left _ (lt_two_pow_log2 significand').le
      _ = 2 ^ (significand'.log2 + 53) := by
        rw [← Nat.pow_add]
        congr 1
        omega
      _ ≤ 2 ^ (significand.log2 + shift) := Nat.pow_le_pow_right (by decide) hamount
      _ = 2 ^ significand.log2 * 2 ^ shift := Nat.pow_add _ _ _
      _ ≤ significand * 2 ^ shift := Nat.mul_le_mul_right _ (Nat.log2_self_le hpositive.ne')
  obtain ⟨up, hup⟩ : ∃ up : Nat, up = (lower + 1074).toNat := ⟨_, rfl⟩
  obtain ⟨down, hdown⟩ : ∃ down : Nat, down = (-(lower + 1074)).toNat := ⟨_, rfl⟩
  have hsame : sizeOf significand exponent * perOne * 2 ^ down =
      significand * 2 ^ shift * 2 ^ up * 2 ^ (exponent' + 1074).toNat := by
    have hsum : (exponent + 1074).toNat + 1074 + down = shift + up + (exponent' + 1074).toNat := by omega
    rw [sizeOf, perOne_eq, Nat.mul_assoc, Nat.mul_assoc, ← Nat.pow_add, ← Nat.pow_add, ← Nat.add_assoc, hsum,
      Nat.pow_add, Nat.pow_add]
    ring
  have hratio : roundedRatio (sizeOf significand exponent * perOne) (sizeOf significand' exponent') =
      roundedRatio (significand * 2 ^ shift * 2 ^ up) (significand' * 2 ^ down) := by
    rw [← roundedRatio_mul_right _ _ (Nat.two_pow_pos down), hsame, sizeOf, Nat.mul_right_comm significand',
      roundedRatio_mul_right _ _ (Nat.two_pow_pos _)]
  rw [hratio]
  refine roundWithAccuracy_ratio sign up down hpositive' (by omega) ?_ ?_
  · rcases Nat.eq_zero_or_pos up with hnone | hsome
    · exact .inl hnone
    · have hlarge := hbits (by omega)
      exact .inr ⟨by omega, by omega⟩
  · rcases lt_or_ge (-1074) lower with hlarge | hsmall
    · have hquotient := hbits hlarge
      have hlog : 52 ≤ (significand * 2 ^ shift / significand').log2 := (Nat.le_log2 (by omega)).mpr hquotient
      omega
    · exact hsmall.trans (le_max_right _ _)

/-- The significand and the exponent of a value with a positive count of units. -/
theorem exists_finite {value : UnpackedFloat} {size : Nat} (h : IsRegular value) (hsize : unitsOf value = size)
    (hpositive : 0 < size) :
    ∃ significand exponent hsignificand, value = .finite .positive significand exponent hsignificand ∧
      IsCanonical significand exponent ∧ sizeOf significand exponent = size := by
  rcases value with _ | _ | _ | ⟨sign, significand, exponent, hsignificand⟩
  · exact h.elim
  · exact h.elim
  · have hzero : (0 : Int) = size := hsize
    omega
  · cases sign
    · have hneg : -(sizeOf significand exponent : Int) = size := hsize
      omega
    · exact ⟨significand, exponent, hsignificand, rfl, h.1, Int.ofNat.inj hsize⟩

/-- A quotient of doubles from zero up is the exact one, rounded. -/
theorem unitsOf_div {value other : UnpackedFloat} {size divisor : Nat} (h : IsRegular value)
    (hother : IsRegular other) (hsize : unitsOf value = size) (hdivisor : unitsOf other = divisor)
    (hpositive : 0 < divisor) :
    IsRounded (div Format.binary64 value other) ∧
      unitsOf (div Format.binary64 value other) = (roundedRatio (size * perOne) divisor : Nat) := by
  obtain ⟨significand', exponent', hsignificand', rfl, hcanonical', rfl⟩ := exists_finite hother hdivisor hpositive
  rcases Nat.eq_zero_or_pos size with rfl | hsome
  · rw [Nat.zero_mul, roundedRatio_zero]
    rcases value with _ | _ | _ | ⟨sign, significand, exponent, hsignificand⟩
    · exact h.elim
    · exact h.elim
    · exact ⟨trivial, rfl⟩
    · have hnone := sizeOf_pos hsignificand exponent
      cases sign
      · have hzero : -(sizeOf significand exponent : Int) = 0 := hsize
        omega
      · have hzero : (sizeOf significand exponent : Int) = 0 := hsize
        omega
  · obtain ⟨significand, exponent, hsignificand, rfl, hcanonical, rfl⟩ := exists_finite h hsize hsome
    exact unitsOf_divCore hsignificand hsignificand' hcanonical.least hcanonical'.least .positive rfl

theorem isNaN_unpack_packComponents {exponent : BitVec 11} {mantissa : BitVec 52} (sign : Sign)
    (h : exponent = -1#11 → mantissa = 0#52) :
    (unpack Format.binary64 (packComponents Format.binary64 sign exponent mantissa)).isNaN = false := by
  simp only [unpack, unpackExponent_packComponents, unpackMantissa_packComponents]
  split
  · rename_i hall
    rw [if_pos (h hall)]
    rfl
  · split
    · split <;> rfl
    · rfl

/-- What is packed is undefined only when it was. -/
theorem isNaN_unpack_pack {value : UnpackedFloat} (h : value.isNaN = false) :
    (unpack Format.binary64 (pack Format.binary64 value)).isNaN = false := by
  rcases value with sign | _ | sign | ⟨sign, significand, exponent, hpositive⟩
  · exact isNaN_unpack_packComponents sign fun _ => rfl
  · cases h
  · exact isNaN_unpack_packComponents sign fun _ => rfl
  · simp only [pack]
    split
    · exact isNaN_unpack_packComponents sign fun _ => rfl
    · rename_i hfield
      split
      · refine isNaN_unpack_packComponents sign fun hall => absurd (congrArg BitVec.toNat hall) ?_
        have hlt : (exponent + Format.binary64.exponentBias + (52 : Nat)).toNat < 2 ^ 11 := by
          change ¬2 ^ 11 ≤ (exponent + Format.binary64.exponentBias + (52 : Nat)).toNat + 1 at hfield
          omega
        change ¬2 ^ 11 ≤ (exponent + Format.binary64.exponentBias + (52 : Nat)).toNat + 1 at hfield
        rw [BitVec.toNat_ofNat, Nat.mod_eq_of_lt hlt]
        change (exponent + Format.binary64.exponentBias + (52 : Nat)).toNat ≠ 2047
        omega
      · exact isNaN_unpack_packComponents sign fun hall => absurd hall (by decide)

theorem isNaN_roundWithAccuracy (sign : Sign) (significand : Nat) (exponent : Int) (accuracy : Accuracy) :
    (roundWithAccuracy Format.binary64 sign significand exponent accuracy).isNaN = false := by
  simp only [roundWithAccuracy]
  split <;> rfl

variable {x y z : Float}

theorem isNaN_eq_isNaN_unpack (x : Float) : x.isNaN = x.toModel.unpack.isNaN := rfl

/-- A quotient of doubles from zero up is finite when the exact one is not too large. -/
theorem isFinite_div {size divisor : Nat} (hx : x.isFinite = true) (hy : y.isFinite = true) (hsize : units x = size)
    (hdivisor : units y = divisor) (hpositive : 0 < divisor) (h : roundedRatio (size * perOne) divisor < overflow) :
    (x / y).isFinite = true ∧ units (x / y) = (roundedRatio (size * perOne) divisor : Nat) := by
  obtain ⟨hrounded, hunits⟩ :=
    unitsOf_div (isRegular_of_isFinite hx) (isRegular_of_isFinite hy) hsize hdivisor hpositive
  have hfinite : (x / y).isFinite = true := isFinite_pack hrounded (by rwa [hunits, Int.natAbs_natCast])
  exact ⟨hfinite, (units_pack hrounded hfinite).trans hunits⟩

/-- A finite double by a positive one is not undefined. -/
theorem isNaN_div (hx : x.isFinite = true) (hy : 0 < y) : (x / y).isNaN = false := by
  have hcompare : UnpackedFloat.lt (.zero .positive) y.toModel.unpack = true := of_decide_eq_true hy
  have hvalue : x.toModel.unpack.isFinite = true := hx
  refine isNaN_unpack_pack ?_
  generalize x.toModel.unpack = value at hvalue
  generalize y.toModel.unpack = other at hcompare
  rcases value with _ | _ | _ | ⟨sign, significand, exponent, hsignificand⟩
  · cases hvalue
  · cases hvalue
  · rcases other with _ | _ | _ | _
    · rfl
    · cases hcompare
    · cases hcompare
    · rfl
  · rcases other with _ | _ | _ | _
    · rfl
    · cases hcompare
    · cases hcompare
    · exact isNaN_roundWithAccuracy _ _ _ _

/-- A double that is not undefined is finite, or lies on one side of all that are. -/
theorem finite_or_beyond (hz : z.isNaN = false) :
    z.isFinite = true ∨ (∀ x : Float, x.isFinite = true → z < x) ∨ ∀ x : Float, x.isFinite = true → x < z := by
  have hlt : ∀ x y : Float, (x.toModel.unpack.lt y.toModel.unpack) = true → x < y := fun _ _ h => decide_eq_true h
  have hfinite : z.isFinite = z.toModel.unpack.isFinite := rfl
  rw [isNaN_eq_isNaN_unpack] at hz
  rw [hfinite]
  have hbefore := fun x : Float => hlt z x
  have hbehind := fun x : Float => hlt x z
  generalize z.toModel.unpack = value at hz hbefore hbehind
  rcases value with sign | _ | _ | _
  · right
    cases sign
    · left
      intro x hx
      apply hbefore
      have hvalue : x.toModel.unpack.isFinite = true := hx
      generalize x.toModel.unpack = other at hvalue
      cases other with
      | infinity | notANumber => cases hvalue
      | zero | finite => rfl
    · right
      intro x hx
      apply hbehind
      have hvalue : x.toModel.unpack.isFinite = true := hx
      generalize x.toModel.unpack = other at hvalue
      rcases other with _ | _ | _ | ⟨sign, _, _, _⟩
      · cases hvalue
      · cases hvalue
      · rfl
      · cases sign <;> rfl
  · cases hz
  · exact .inl rfl
  · exact .inl rfl

theorem units_one : units (Float.ofBits 0x3FF0000000000000) = (1 * perOne : Nat) := by
  have hone : Float.ofBits 0x3FF0000000000000 = (1 : UInt64).toFloat := by decide +kernel
  rw [hone]
  exact (toFloat_whole (by decide)).2

/-- A count times a power of ten is rounded. -/
theorem unitsOf_ofScientific {count power : Nat} (h : count ≠ 0) (hpower : power ≤ 2 ^ 11) :
    IsRounded (ofScientific Format.binary64 count power) ∧
      unitsOf (ofScientific Format.binary64 count power) = (rounded (count * 10 ^ power * perOne) : Nat) := by
  have hscaled : count * 10 ^ power ≠ 0 := Nat.mul_ne_zero h (Nat.pow_pos (by decide)).ne'
  have hnotBeyond : ¬ ((2 ^ Format.binary64.exponentBits : Nat) : Int) < power := by
    have hbits : 2 ^ Format.binary64.exponentBits = 2 ^ 11 := rfl
    omega
  have hnotBelow : ¬ (power : Int) < -((2 ^ 11 : Int) + count.log2) := by omega
  have hvalue : ofScientific Format.binary64 count power =
      roundWithAccuracy Format.binary64 .positive (count * 10 ^ power * 2 ^ 53) (-53) .exact := by
    have hmantissa : count * 2 ^ Format.binary64.mantissaBits * 10 ^ (power : Int).toNat =
        count * 10 ^ power * 2 ^ 53 := Nat.mul_right_comm _ _ _
    rw [ofScientific, dif_neg h, if_neg (by exact_mod_cast hnotBeyond), if_neg hnotBelow,
      if_pos (Int.natCast_nonneg _), mul, Nat.shiftLeft_eq, hmantissa]
    rfl
  have hsize : count * 10 ^ power * perOne * 2 ^ 0 = count * 10 ^ power * 2 ^ 53 * 2 ^ 1021 := by
    rw [Nat.pow_zero, Nat.mul_one, Nat.mul_assoc _ (2 ^ 53), ← Nat.pow_add, perOne_eq]
  have hlog : (-53 : Int) ≤ max (((count * 10 ^ power * 2 ^ 53).log2 : Int) + -53 - 52) (-1074) := by
    rw [log2_mul_two_pow hscaled]
    omega
  obtain ⟨left, final, hleft, hround, hcanonical, hfinal⟩ :=
    roundWithAccuracy_size .positive 1021 0 (Nat.mul_ne_zero hscaled perOne_pos.ne') hsize (by decide) hlog
  rw [hvalue, hround, ← hfinal]
  exact ⟨hcanonical, rfl⟩

/-- A count is a double, rounded. -/
theorem ofNat_rounded {count : Nat} (h : count < 2 ^ 64) :
    (Float.ofNat count).isFinite = true ∧ units (Float.ofNat count) = (rounded (count * perOne) : Nat) := by
  have hsmall : rounded (count * perOne) < overflow := by
    have hle : rounded (count * perOne) ≤ 2 ^ 64 * perOne := by
      rw [← two_pow_mul_perOne]
      refine rounded_le_of_pow ?_
      rw [two_pow_mul_perOne]
      exact Nat.mul_le_mul_right _ h.le
    rw [overflow_eq]
    refine hle.trans_lt (Nat.mul_lt_mul_of_pos_right ?_ perOne_pos)
    gcongr <;> decide
  by_cases hbits : count < 2 ^ 53
  · have heq : Float.ofNat count = count.toUInt64.toFloat * Float.ofBits 0x3FF0000000000000 := by
      change Float.ofScientific count false 0 = _
      rw [Float.ofScientific, dif_pos ⟨hbits, Nat.zero_le _⟩]
      rfl
    have hword : count.toUInt64.toNat = count := Nat.mod_eq_of_lt h
    obtain ⟨hfinite, hunits⟩ := @toFloat_whole count.toUInt64 (by rwa [hword])
    rw [hword] at hunits
    have hproduct : units count.toUInt64.toFloat * (1 : Nat) = (count * perOne : Nat) := by
      rw [hunits, Nat.cast_one, Int.mul_one]
    rw [heq, ← nearestUnits_natCast, ← hproduct]
    exact isFinite_mul hfinite rfl units_one (by rwa [hproduct, Int.natAbs_natCast])
  · have heq : Float.ofNat count = Float.ofModel (.ofScientific count (0 : Nat)) := by
      change Float.ofScientific count false 0 = _
      rw [Float.ofScientific, dif_neg (by omega)]
      rfl
    obtain ⟨hrounded, hunits⟩ := unitsOf_ofScientific (by omega : count ≠ 0) (Nat.zero_le (2 ^ 11))
    rw [Nat.pow_zero, Nat.mul_one] at hunits
    have hfinite : (Float.ofModel (.ofScientific count (0 : Nat))).isFinite = true :=
      isFinite_pack hrounded (by rwa [hunits, Int.natAbs_natCast])
    rw [heq]
    exact ⟨hfinite, (units_pack hrounded hfinite).trans hunits⟩

end Segue.Double
