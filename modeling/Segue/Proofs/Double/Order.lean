import Segue.Proofs.Double.Quotients

/-!
The order of all doubles but the undefined ones. Main statements: it is that of the units, with the
infinite doubles beyond all others, and the key that doubles are sorted by agrees with it.
-/

namespace Segue.Double

open Float.Model (Format UnpackedFloat)
open Float.Model.UnpackedFloat

/-- The place of a value in the order: its units, or what is beyond all of them when it is infinite. -/
def placeOf : UnpackedFloat → Int
  | .infinity sign => sign.apply overflow
  | value => unitsOf value

theorem placeOf_of_isRegular {value : UnpackedFloat} (h : IsRegular value) : placeOf value = unitsOf value := by
  cases value with
  | infinity => exact h.elim
  | _ => rfl

theorem natAbs_apply (sign : Sign) (size : Nat) : (sign.apply (size : Int)).natAbs = size := by
  cases sign
  · exact (Int.natAbs_neg _).trans (Int.natAbs_natCast _)
  · exact Int.natAbs_natCast _

theorem overflow_pos : 0 < overflow := by
  unfold overflow
  positivity

/-- A value that a double has is not too large for one. -/
theorem natAbs_unitsOf_lt {value : UnpackedFloat} (h : IsRegular value) : (unitsOf value).natAbs < overflow := by
  rcases value with _ | _ | _ | ⟨sign, significand, exponent, hpositive⟩
  · exact overflow_pos
  · exact overflow_pos
  · exact overflow_pos
  · have hexponent : (exponent + 1074).toNat + 1 ≤ 2046 := by
      have := h.2
      omega
    rw [unitsOf, natAbs_apply]
    calc
      sizeOf significand exponent < 2 ^ 53 * 2 ^ (exponent + 1074).toNat :=
        Nat.mul_lt_mul_of_pos_right h.1.lt (Nat.two_pow_pos _)
      _ = 2 ^ 52 * 2 ^ ((exponent + 1074).toNat + 1) := by
        rw [← Nat.pow_add, ← Nat.pow_add]
        congr 1
        omega
      _ ≤ overflow := by
        rw [overflow]
        gcongr
        decide

/-- An infinite value is before or behind all finite ones. -/
theorem compare_infinity {value : UnpackedFloat} (h : IsRegular value) (sign : Sign) :
    (UnpackedFloat.infinity sign).compare value = some (compare (placeOf (.infinity sign)) (placeOf value)) ∧
      value.compare (.infinity sign) = some (compare (placeOf value) (placeOf (.infinity sign))) := by
  have hlt := natAbs_unitsOf_lt h
  rw [placeOf_of_isRegular h]
  cases sign
  · have hbefore : placeOf (.infinity .negative) < unitsOf value := by
      change -(overflow : Int) < _
      omega
    rw [Int.compare_eq_lt.mpr hbefore, Int.compare_eq_gt.mpr hbefore]
    cases value with
    | notANumber => exact h.elim
    | infinity => exact h.elim
    | zero => exact ⟨rfl, rfl⟩
    | finite sign => cases sign <;> exact ⟨rfl, rfl⟩
  · have hbehind : unitsOf value < placeOf (.infinity .positive) := by
      change _ < (overflow : Int)
      omega
    rw [Int.compare_eq_lt.mpr hbehind, Int.compare_eq_gt.mpr hbehind]
    cases value with
    | notANumber => exact h.elim
    | infinity => exact h.elim
    | zero => exact ⟨rfl, rfl⟩
    | finite sign => cases sign <;> exact ⟨rfl, rfl⟩

theorem compare_infinities (sign sign' : Sign) :
    (UnpackedFloat.infinity sign).compare (.infinity sign') =
      some (compare (placeOf (.infinity sign)) (placeOf (.infinity sign'))) := by
  have hpositive := overflow_pos
  have hlt : placeOf (.infinity .negative) < placeOf (.infinity .positive) := by
    change -(overflow : Int) < (overflow : Int)
    omega
  cases sign <;> cases sign'
  · rw [Int.compare_eq_eq.mpr rfl]
    rfl
  · rw [Int.compare_eq_lt.mpr hlt]
    rfl
  · rw [Int.compare_eq_gt.mpr hlt]
    rfl
  · rw [Int.compare_eq_eq.mpr rfl]
    rfl

def place (x : Float) : Int := placeOf x.toModel.unpack

variable {x y z : Float}

theorem place_of_isFinite (h : x.isFinite = true) : place x = units x := placeOf_of_isRegular (isRegular_of_isFinite h)

/-- A double that is not undefined is finite or infinite. -/
theorem isRegular_or_infinity (h : x.isNaN = false) :
    IsRegular x.toModel.unpack ∨ ∃ sign, x.toModel.unpack = .infinity sign := by
  rw [isNaN_eq_isNaN_unpack] at h
  by_cases hfinite : x.isFinite = true
  · exact .inl (isRegular_of_isFinite hfinite)
  · have hvalue : x.toModel.unpack.isFinite ≠ true := hfinite
    right
    generalize x.toModel.unpack = value at h hvalue
    cases value with
    | notANumber => cases h
    | infinity sign => exact ⟨sign, rfl⟩
    | zero => exact absurd rfl hvalue
    | finite => exact absurd rfl hvalue

theorem compare_place (hx : x.isNaN = false) (hy : y.isNaN = false) :
    x.toModel.unpack.compare y.toModel.unpack = some (compare (place x) (place y)) := by
  rcases isRegular_or_infinity hx with hx | ⟨sign, hx⟩ <;> rcases isRegular_or_infinity hy with hy | ⟨sign', hy⟩
  · rw [compare_unitsOf hx hy, place, place, placeOf_of_isRegular hx, placeOf_of_isRegular hy]
  · rw [place, place, hy]
    exact (compare_infinity hx sign').2
  · rw [place, place, hx]
    exact (compare_infinity hy sign).1
  · rw [place, place, hx, hy]
    exact compare_infinities sign sign'

theorem le_iff_place (hx : x.isNaN = false) (hy : y.isNaN = false) : x ≤ y ↔ place x ≤ place y := by
  have hle : x ≤ y ↔ (x.toModel.unpack.compare y.toModel.unpack).any (·.isLE) = true := decide_eq_true_iff
  rw [hle, compare_place hx hy]
  exact Int.isLE_compare

theorem lt_iff_place (hx : x.isNaN = false) (hy : y.isNaN = false) : x < y ↔ place x < place y := by
  have hlt : x < y ↔ (x.toModel.unpack.compare y.toModel.unpack == some .lt) = true := decide_eq_true_iff
  rw [hlt, compare_place hx hy, beq_iff_eq, Option.some.injEq]
  exact Int.compare_eq_lt

/-- What is compared with success is not undefined. -/
theorem isNaN_of_compare {value other : UnpackedFloat} {order : Ordering} (h : value.compare other = some order) :
    value.isNaN = false ∧ other.isNaN = false := by
  cases value <;> cases other <;> first | exact ⟨rfl, rfl⟩ | cases h

theorem isNaN_of_lt (h : x < y) : x.isNaN = false ∧ y.isNaN = false := by
  have hlt : (x.toModel.unpack.compare y.toModel.unpack == some .lt) = true := of_decide_eq_true h
  exact isNaN_of_compare (beq_iff_eq.mp hlt)

theorem bitSize_infinity : bitSize (2047 * 2 ^ 52) = overflow := by
  have hfield : 2047 * 2 ^ 52 / 2 ^ 52 = 2047 := by decide
  have hfraction : 2047 * 2 ^ 52 % 2 ^ 52 = 0 := by decide
  rw [bitSize, hfield, hfraction, if_neg (by decide), overflow, Nat.add_zero]

/-- The bits of an infinite double are those of its sign and of the largest exponent. -/
theorem bits_of_infinity {bits : BitVec 64} {sign : Sign} (h : unpack Format.binary64 bits = .infinity sign) :
    bits.toNat % 2 ^ 63 = 2047 * 2 ^ 52 ∧ sign = if bits.toNat < 2 ^ 63 then .positive else .negative := by
  have hfield := toNat_unpackExponent bits
  have hfraction := toNat_unpackMantissa bits
  have hexponent : (@unpackExponent Format.binary64 bits).toNat = 2047 := by
    by_contra hne
    by_cases hzero : (@unpackExponent Format.binary64 bits).toNat = 0
    · rw [unpack_subnormal hzero rfl] at h
      split at h <;> cases h
    · rw [unpack_normal rfl hzero hne rfl] at h
      cases h
  have hall : @unpackExponent Format.binary64 bits = -1#11 := (exponent_eq_iff 2047 (by decide) hexponent).mpr rfl
  simp only [unpack] at h
  rw [if_pos hall] at h
  by_cases hmantissa : @unpackMantissa Format.binary64 bits = 0#52
  · rw [if_pos hmantissa, ofBitVec_unpackSign] at h
    have hnone : (@unpackMantissa Format.binary64 bits).toNat = 0 := congrArg BitVec.toNat hmantissa
    exact ⟨by omega, (UnpackedFloat.infinity.inj h).symm⟩
  · rw [if_neg hmantissa] at h
    cases h

/-- The bits of a double without its sign stand for its place. -/
theorem place_eq_bitUnits (h : x.isNaN = false) : place x = bitUnits x := by
  by_cases hfinite : x.isFinite = true
  · rw [place_of_isFinite hfinite, units_eq_bitUnits hfinite]
  · obtain ⟨sign, hvalue⟩ : ∃ sign, x.toModel.unpack = .infinity sign := by
      refine (isRegular_or_infinity h).resolve_left fun hregular => hfinite ?_
      change x.toModel.unpack.isFinite = true
      generalize x.toModel.unpack = value at hregular
      cases value with
      | notANumber | infinity => exact hregular.elim
      | zero | finite => rfl
    have hbits : x.toBits.toNat < 2 ^ 64 := x.toBits.toBitVec.isLt
    obtain ⟨hmagnitude, hsign⟩ := bits_of_infinity hvalue
    change x.toBits.toNat % 2 ^ 63 = 2047 * 2 ^ 52 at hmagnitude
    change sign = if x.toBits.toNat < 2 ^ 63 then _ else _ at hsign
    rw [place, hvalue, hsign, bitUnits]
    by_cases hpositive : x.toBits.toNat < 2 ^ 63
    · have hsame : x.toBits.toNat = 2047 * 2 ^ 52 := by omega
      rw [if_pos hpositive, if_pos hpositive, hsame, bitSize_infinity]
      rfl
    · have hsame : x.toBits.toNat - 2 ^ 63 = 2047 * 2 ^ 52 := by omega
      rw [if_neg hpositive, if_neg hpositive, hsame, bitSize_infinity]
      rfl

/-- The key that doubles are sorted by agrees with their order. -/
theorem place_le_of_floatKey (hx : x.isNaN = false) (hy : y.isNaN = false)
    (h : Scalar.floatKey x ≤ Scalar.floatKey y) : place x ≤ place y := by
  rw [place_eq_bitUnits hx, place_eq_bitUnits hy]
  exact bitUnits_le_of_floatKey h

end Segue.Double
