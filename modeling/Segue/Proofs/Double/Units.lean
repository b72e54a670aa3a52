import Segue.Proofs.Double.Rounding
import Segue.Scalar

/-!
Doubles as whole numbers. A finite double is counted in units of the least positive one. Main
statements: what is packed is unpacked again as long as it is not too large, and the order of
doubles is that of their units.
-/

namespace Segue.Double

open Float.Model (Format UnpackedFloat)
open Float.Model.UnpackedFloat

/-- A finite value that a double has. -/
def IsRegular : UnpackedFloat → Prop
  | .finite _ significand exponent _ => IsCanonical significand exponent ∧ exponent ≤ 971
  | .zero _ => True
  | _ => False

def unitsOf : UnpackedFloat → Int
  | .finite sign significand exponent _ => sign.apply (sizeOf significand exponent)
  | _ => 0

theorem ofBitVec_toBitVec (sign : Sign) : Sign.ofBitVec sign.toBitVec = sign := by
  cases sign <;> rfl

theorem unpackSign_packComponents (sign : Sign) (exponent : BitVec 11) (mantissa : BitVec 52) :
    unpackSign (packComponents Format.binary64 sign exponent mantissa) = sign.toBitVec := by
  change (sign.toBitVec ++ exponent ++ mantissa).extractLsb' 63 1 = sign.toBitVec
  rw [BitVec.extractLsb'_append_eq_of_le (by decide), BitVec.extractLsb'_append_eq_of_le (by decide)]
  cases sign <;> rfl

theorem toNat_one_append (mantissa : BitVec 52) : (1#1 ++ mantissa).toNat = 2 ^ 52 + mantissa.toNat := by
  change 2 ^ 52 ||| mantissa.toNat = _
  rw [Nat.or_comm, Nat.or_two_pow_eq_add_of_lt mantissa.isLt, Nat.add_comm]

section Unpack

variable {bits : BitVec Format.binary64.numBits} {field fraction : Nat}

theorem exponent_eq_iff {exponent : BitVec 11} (value : Nat) (hvalue : value < 2 ^ 11)
    (h : exponent.toNat = field) : exponent = BitVec.ofNat 11 value ↔ field = value := by
  rw [← BitVec.toNat_inj, BitVec.toNat_ofNat, Nat.mod_eq_of_lt hvalue, h]

theorem isFinite_unpack_of_field (hfield : (unpackExponent bits).toNat = 2047) :
    (unpack Format.binary64 bits).isFinite = false := by
  have hall : unpackExponent bits = -1#11 := (exponent_eq_iff 2047 (by decide) hfield).mpr rfl
  simp only [unpack]
  rw [if_pos hall]
  split <;> rfl

theorem unpack_subnormal (hfield : (unpackExponent bits).toNat = 0)
    (hfraction : (unpackMantissa bits).toNat = fraction) :
    unpack Format.binary64 bits =
      if h : fraction = 0 then .zero (Sign.ofBitVec (unpackSign bits))
      else .finite (Sign.ofBitVec (unpackSign bits)) fraction (-1074) (Nat.pos_of_ne_zero h) := by
  have hnone : unpackExponent bits ≠ -1#11 := by
    intro h
    rw [h] at hfield
    cases hfield
  have hzero : unpackExponent bits = 0#11 := (exponent_eq_iff 0 (by decide) hfield).mpr rfl
  subst hfraction
  simp only [unpack]
  rw [if_neg hnone, if_pos hzero]
  by_cases h : unpackMantissa bits = 0#52
  · have hnat : (unpackMantissa bits).toNat = 0 := congrArg BitVec.toNat h
    rw [dif_pos h, dif_pos hnat]
  · have hnat : (unpackMantissa bits).toNat ≠ 0 := fun hnat => h (BitVec.eq_of_toNat_eq hnat)
    rw [dif_neg h, dif_neg hnat]
    congr 1
    rw [hfield]
    rfl

theorem unpack_normal (hfield : (unpackExponent bits).toNat = field) (hpositive : field ≠ 0) (hlt : field ≠ 2047)
    (hfraction : (unpackMantissa bits).toNat = fraction) :
    unpack Format.binary64 bits =
      .finite (Sign.ofBitVec (unpackSign bits)) (2 ^ 52 + fraction) (field - 1075) (by omega) := by
  have hnone : unpackExponent bits ≠ -1#11 := fun h => hlt ((exponent_eq_iff 2047 (by decide) hfield).mp h)
  have hzero : unpackExponent bits ≠ 0#11 := fun h => hpositive ((exponent_eq_iff 0 (by decide) hfield).mp h)
  subst hfraction hfield
  simp only [unpack]
  rw [if_neg hnone, if_neg hzero]
  congr 1
  exact toNat_one_append _

end Unpack

/-- A value that a double has is unpacked as it has been packed. -/
theorem unpack_pack {sign : Sign} {significand : Nat} {exponent : Int} (hpositive : 0 < significand)
    (h : IsCanonical significand exponent) (hexponent : exponent ≤ 971) :
    unpack Format.binary64 (pack Format.binary64 (.finite sign significand exponent hpositive)) =
      .finite sign significand exponent hpositive := by
  have hbias : (exponent + (Format.binary64.exponentBias : Int) + (52 : Nat)).toNat = (exponent + 1075).toNat := by
    change (exponent + 1023 + 52).toNat = _
    omega
  have hleast := h.least
  have hlt := h.lt
  have hlog : significand.log2 < 53 := (Nat.log2_lt hpositive.ne').mpr hlt
  simp only [pack, hbias]
  rw [if_neg (by omega)]
  by_cases hbits : significand.log2 + 1 = Format.binary64.mantissaBits
  · -- the leading bit is there, and is not written
    have hnormal : 2 ^ 52 ≤ significand := (Nat.le_log2 hpositive.ne').mp (Nat.le_of_eq (Nat.succ.inj hbits).symm)
    have hfield : (BitVec.ofNat 11 (exponent + 1075).toNat).toNat = (exponent + 1075).toNat := by
      rw [BitVec.toNat_ofNat]
      exact Nat.mod_eq_of_lt (by omega)
    rw [if_pos hbits, unpack_normal ((congrArg BitVec.toNat unpackExponent_packComponents).trans hfield) (by omega)
      (by omega) ((congrArg BitVec.toNat unpackMantissa_packComponents).trans (BitVec.toNat_ofNat _ _)),
      unpackSign_packComponents, ofBitVec_toBitVec]
    have hsum : 2 ^ 52 + significand % 2 ^ 52 = significand := by omega
    have hback : ((exponent + 1075).toNat : Int) - 1075 = exponent := by omega
    congr 1
  · have hsmall : significand < 2 ^ 52 := by
      refine (Nat.log2_lt hpositive.ne').mp ?_
      have hne : significand.log2 + 1 ≠ 53 := hbits
      omega
    have hexponent : exponent = -1074 := h.normal.resolve_left hsmall.not_ge
    subst hexponent
    have hfraction : (BitVec.ofNat 52 significand).toNat = significand := by
      rw [BitVec.toNat_ofNat]
      exact Nat.mod_eq_of_lt hsmall
    rw [if_neg hbits, unpack_subnormal (congrArg BitVec.toNat unpackExponent_packComponents)
      ((congrArg BitVec.toNat unpackMantissa_packComponents).trans hfraction), dif_neg hpositive.ne',
      unpackSign_packComponents, ofBitVec_toBitVec]

theorem unpack_pack_zero (sign : Sign) :
    unpack Format.binary64 (pack Format.binary64 (.zero sign)) = .zero sign := by
  change unpack Format.binary64 (packComponents Format.binary64 sign 0 0) = .zero sign
  rw [unpack_subnormal (congrArg BitVec.toNat unpackExponent_packComponents)
    (congrArg BitVec.toNat unpackMantissa_packComponents), unpackSign_packComponents, ofBitVec_toBitVec]
  rfl

/-- What is too large for a double is packed as infinity. -/
theorem isFinite_pack_of_lt {sign : Sign} {significand : Nat} {exponent : Int} (hpositive : 0 < significand)
    (hexponent : 971 < exponent) :
    (unpack Format.binary64 (pack Format.binary64 (.finite sign significand exponent hpositive))).isFinite =
      false := by
  have hbias : (exponent + (Format.binary64.exponentBias : Int) + (52 : Nat)).toNat = (exponent + 1075).toNat := by
    change (exponent + 1023 + 52).toNat = _
    omega
  simp only [pack, hbias]
  rw [if_pos (by omega)]
  exact isFinite_unpack_of_field (congrArg BitVec.toNat unpackExponent_packComponents)

/-- The size that the bits of a double without its sign stand for. -/
def bitSize (magnitude : Nat) : Nat :=
  if magnitude / 2 ^ 52 = 0 then magnitude % 2 ^ 52
  else (2 ^ 52 + magnitude % 2 ^ 52) * 2 ^ (magnitude / 2 ^ 52 - 1)

theorem bitSize_mono {magnitude greater : Nat} (h : magnitude ≤ greater) : bitSize magnitude ≤ bitSize greater := by
  have hfields : magnitude / 2 ^ 52 ≤ greater / 2 ^ 52 := Nat.div_le_div_right h
  have hrest : magnitude % 2 ^ 52 < 2 ^ 52 := Nat.mod_lt _ (by decide)
  rcases Nat.lt_or_eq_of_le hfields with hlt | heq
  · have hgreater : 2 ^ 52 * 2 ^ (greater / 2 ^ 52 - 1) ≤ bitSize greater := by
      rw [bitSize, if_neg (by omega)]
      exact Nat.mul_le_mul_right _ (Nat.le_add_right _ _)
    refine Nat.le_trans ?_ hgreater
    rw [bitSize]
    split
    · exact hrest.le.trans (Nat.le_mul_of_pos_right _ (Nat.two_pow_pos _))
    · rename_i hfield
      have hpow : 2 ^ (magnitude / 2 ^ 52 - 1 + 1) = 2 * 2 ^ (magnitude / 2 ^ 52 - 1) := Nat.pow_succ'
      have hstep : (2 ^ 52 + magnitude % 2 ^ 52) * 2 ^ (magnitude / 2 ^ 52 - 1) ≤
          2 ^ 52 * 2 ^ (magnitude / 2 ^ 52 - 1 + 1) := by
        rw [hpow, ← Nat.mul_assoc]
        exact Nat.mul_le_mul_right _ (by omega)
      exact hstep.trans (Nat.mul_le_mul_left _ (Nat.pow_le_pow_right (by decide) (by omega)))
  · have hfractions : magnitude % 2 ^ 52 ≤ greater % 2 ^ 52 := by omega
    rw [bitSize, bitSize, heq]
    split
    · exact hfractions
    · exact Nat.mul_le_mul_right _ (Nat.add_le_add_left hfractions _)

theorem toNat_unpackMantissa (bits : BitVec 64) :
    (@unpackMantissa Format.binary64 bits).toNat = bits.toNat % 2 ^ 52 := by
  simp [unpackMantissa]

theorem toNat_unpackExponent (bits : BitVec 64) :
    (@unpackExponent Format.binary64 bits).toNat = bits.toNat / 2 ^ 52 % 2 ^ 11 := by
  simp [unpackExponent, Nat.shiftRight_eq_div_pow]

theorem ofBitVec_unpackSign (bits : BitVec 64) :
    Sign.ofBitVec (@unpackSign Format.binary64 bits) = if bits.toNat < 2 ^ 63 then .positive else .negative := by
  have hbits : bits.toNat < 2 ^ 64 := bits.isLt
  have hsign : (@unpackSign Format.binary64 bits).toNat = bits.toNat / 2 ^ 63 % 2 := by
    simp [unpackSign, Nat.shiftRight_eq_div_pow]
  by_cases h : bits.toNat < 2 ^ 63
  · have hzero : @unpackSign Format.binary64 bits = 0#1 := BitVec.eq_of_toNat_eq (by rw [hsign]; change _ = 0; omega)
    rw [if_pos h, hzero]
    rfl
  · have hone : @unpackSign Format.binary64 bits = 1#1 := BitVec.eq_of_toNat_eq (by rw [hsign]; change _ = 1; omega)
    rw [if_neg h, hone]
    rfl

/-- A finite double has a value of that kind, and as many units as its bits without the sign stand
for. -/
theorem isRegular_unpack {bits : BitVec 64} (h : (unpack Format.binary64 bits).isFinite = true) :
    IsRegular (unpack Format.binary64 bits) ∧
      unitsOf (unpack Format.binary64 bits) =
        (Sign.ofBitVec (@unpackSign Format.binary64 bits)).apply (bitSize (bits.toNat % 2 ^ 63)) := by
  have hfield := toNat_unpackExponent bits
  have hfraction := toNat_unpackMantissa bits
  have hhigh : bits.toNat % 2 ^ 63 / 2 ^ 52 = bits.toNat / 2 ^ 52 % 2 ^ 11 := by omega
  have hlow : bits.toNat % 2 ^ 63 % 2 ^ 52 = bits.toNat % 2 ^ 52 := by omega
  have hlt : bits.toNat % 2 ^ 52 < 2 ^ 52 := Nat.mod_lt _ (by decide)
  have hupper : bits.toNat / 2 ^ 52 % 2 ^ 11 < 2 ^ 11 := Nat.mod_lt _ (by decide)
  have hfinite : bits.toNat / 2 ^ 52 % 2 ^ 11 ≠ 2047 := by
    intro hnone
    rw [isFinite_unpack_of_field (hfield.trans hnone)] at h
    cases h
  rw [bitSize, hhigh, hlow]
  by_cases hzero : bits.toNat / 2 ^ 52 % 2 ^ 11 = 0
  · rw [if_pos hzero, unpack_subnormal (hfield.trans hzero) hfraction]
    split
    · rename_i hnone
      rw [hnone]
      refine ⟨trivial, ?_⟩
      cases Sign.ofBitVec (@unpackSign Format.binary64 bits) <;> rfl
    · refine ⟨⟨⟨by omega, by omega, .inr rfl⟩, by omega⟩, ?_⟩
      change Sign.apply _ ((sizeOf _ _ : Nat) : Int) = _
      rw [sizeOf]
      simp
  · rw [if_neg hzero, unpack_normal hfield hzero hfinite hfraction]
    refine ⟨⟨⟨by omega, by omega, .inl (Nat.le_add_right _ _)⟩, by omega⟩, ?_⟩
    have hexponent : (((bits.toNat / 2 ^ 52 % 2 ^ 11 : Nat) : Int) - 1075 + 1074).toNat =
        bits.toNat / 2 ^ 52 % 2 ^ 11 - 1 := by omega
    change Sign.apply _ ((sizeOf _ _ : Nat) : Int) = _
    rw [sizeOf, hexponent]

/-- Values that doubles have are ordered by their exponents and then by their significands. -/
theorem compare_sizeOf {significand other : Nat} {exponent another : Int} (h : IsCanonical significand exponent)
    (hother : IsCanonical other another) :
    (compare exponent another).then (compare significand other) =
      compare (sizeOf significand exponent) (sizeOf other another) := by
  have hsmaller : ∀ {m n : Nat} {d e : Int}, IsCanonical m d → IsCanonical n e → d < e → sizeOf m d < sizeOf n e := by
    intro m n d e hm hn hlt
    have hleast := hm.least
    have hnormal : 2 ^ 52 ≤ n := hn.normal.resolve_right (by omega)
    calc
      sizeOf m d < 2 ^ 53 * 2 ^ (d + 1074).toNat := Nat.mul_lt_mul_of_pos_right hm.lt (Nat.two_pow_pos _)
      _ = 2 ^ 52 * 2 ^ ((d + 1074).toNat + 1) := by
        rw [← Nat.pow_add, ← Nat.pow_add]
        congr 1
        omega
      _ ≤ 2 ^ 52 * 2 ^ (e + 1074).toNat := Nat.mul_le_mul_left _ (Nat.pow_le_pow_right (by decide) (by omega))
      _ ≤ sizeOf n e := Nat.mul_le_mul_right _ hnormal
  rcases lt_trichotomy exponent another with hlt | rfl | hlt
  · rw [Int.compare_eq_lt.mpr hlt, Nat.compare_eq_lt.mpr (hsmaller h hother hlt)]
    rfl
  · rw [Int.compare_eq_eq.mpr rfl, sizeOf, sizeOf]
    have hpositive : 0 < 2 ^ (exponent + 1074).toNat := Nat.two_pow_pos _
    rcases lt_trichotomy significand other with hlt | rfl | hlt
    · rw [Nat.compare_eq_lt.mpr hlt, Nat.compare_eq_lt.mpr (Nat.mul_lt_mul_of_pos_right hlt hpositive)]
      rfl
    · rw [Nat.compare_eq_eq.mpr rfl, Nat.compare_eq_eq.mpr rfl]
      rfl
    · rw [Nat.compare_eq_gt.mpr hlt, Nat.compare_eq_gt.mpr (Nat.mul_lt_mul_of_pos_right hlt hpositive)]
      rfl
  · rw [Int.compare_eq_gt.mpr hlt, Nat.compare_eq_gt.mpr (hsmaller hother h hlt)]
    rfl

theorem compare_natCast (m n : Nat) : compare (m : Int) (n : Int) = compare m n := by
  simp only [Int.compare_eq_ite_lt, Nat.compare_eq_ite_lt, Int.ofNat_lt]

theorem compare_neg_natCast (m n : Nat) : compare (-(m : Int)) (-(n : Int)) = (compare m n).swap := by
  rw [Nat.compare_swap]
  simp only [Int.compare_eq_ite_lt, Nat.compare_eq_ite_lt, Int.neg_lt_neg_iff, Int.ofNat_lt]

theorem sizeOf_pos {significand : Nat} (h : 0 < significand) (exponent : Int) : 0 < sizeOf significand exponent :=
  Nat.mul_pos h (Nat.two_pow_pos _)

/-- Values that doubles have are ordered as their units are. -/
theorem compare_unitsOf {value other : UnpackedFloat} (h : IsRegular value) (hother : IsRegular other) :
    value.compare other = some (compare (unitsOf value) (unitsOf other)) := by
  rcases value with _ | _ | _ | ⟨sign, significand, exponent, hpositive⟩
  · exact h.elim
  · exact h.elim
  · rcases other with _ | _ | _ | ⟨sign, other, another, hpositive⟩
    · exact hother.elim
    · exact hother.elim
    · rfl
    · have hsize := sizeOf_pos hpositive another
      cases sign
      · have hlt : -(sizeOf other another : Int) < 0 := by omega
        exact congrArg some (Int.compare_eq_gt.mpr hlt).symm
      · have hlt : (0 : Int) < sizeOf other another := by omega
        exact congrArg some (Int.compare_eq_lt.mpr hlt).symm
  · have hsize := sizeOf_pos hpositive exponent
    rcases other with _ | _ | _ | ⟨sign', other, another, hpositive'⟩
    · exact hother.elim
    · exact hother.elim
    · cases sign
      · have hlt : -(sizeOf significand exponent : Int) < 0 := by omega
        exact congrArg some (Int.compare_eq_lt.mpr hlt).symm
      · have hlt : (0 : Int) < sizeOf significand exponent := by omega
        exact congrArg some (Int.compare_eq_gt.mpr hlt).symm
    · have hsize' := sizeOf_pos hpositive' another
      have hsizes := compare_sizeOf h.1 hother.1
      cases sign <;> cases sign'
      · change some ((compare exponent another).then (compare significand other)).swap =
          some (compare (-(sizeOf significand exponent : Int)) (-(sizeOf other another : Int)))
        rw [compare_neg_natCast, hsizes]
      · have hlt : -(sizeOf significand exponent : Int) < sizeOf other another := by omega
        exact congrArg some (Int.compare_eq_lt.mpr hlt).symm
      · have hlt : -(sizeOf other another : Int) < sizeOf significand exponent := by omega
        exact congrArg some (Int.compare_eq_gt.mpr hlt).symm
      · change some ((compare exponent another).then (compare significand other)) =
          some (compare (sizeOf significand exponent : Int) (sizeOf other another : Int))
        rw [compare_natCast, hsizes]

/-- How many units a double has; an infinite or undefined one has none. -/
def units (x : Float) : Int := unitsOf x.toModel.unpack

theorem isRegular_of_isFinite {x : Float} (h : x.isFinite = true) : IsRegular x.toModel.unpack :=
  (isRegular_unpack h).1

theorem le_iff_units {x y : Float} (hx : x.isFinite = true) (hy : y.isFinite = true) : x ≤ y ↔ units x ≤ units y := by
  have hcompare := compare_unitsOf (isRegular_of_isFinite hx) (isRegular_of_isFinite hy)
  have hle : x ≤ y ↔ (x.toModel.unpack.compare y.toModel.unpack).any (·.isLE) = true := decide_eq_true_iff
  rw [hle, hcompare]
  exact Int.isLE_compare

theorem lt_iff_units {x y : Float} (hx : x.isFinite = true) (hy : y.isFinite = true) : x < y ↔ units x < units y := by
  have hcompare := compare_unitsOf (isRegular_of_isFinite hx) (isRegular_of_isFinite hy)
  have hlt : x < y ↔ (x.toModel.unpack.compare y.toModel.unpack == some .lt) = true := decide_eq_true_iff
  rw [hlt, hcompare, beq_iff_eq, Option.some.injEq]
  exact Int.compare_eq_lt

def bitUnits (x : Float) : Int :=
  if x.toBits.toNat < 2 ^ 63 then (bitSize x.toBits.toNat : Int) else -(bitSize (x.toBits.toNat - 2 ^ 63) : Int)

theorem units_eq_bitUnits {x : Float} (h : x.isFinite = true) : units x = bitUnits x := by
  have hbits : x.toBits.toNat < 2 ^ 64 := x.toBits.toBitVec.isLt
  have hunits := (isRegular_unpack h).2
  rw [ofBitVec_unpackSign] at hunits
  rw [units, Float.Model.unpack, hunits]
  change Sign.apply (if x.toBits.toNat < 2 ^ 63 then _ else _) (bitSize (x.toBits.toNat % 2 ^ 63) : Int) = _
  rw [bitUnits]
  by_cases hsign : x.toBits.toNat < 2 ^ 63
  · rw [if_pos hsign, if_pos hsign, Nat.mod_eq_of_lt hsign]
    rfl
  · have hmod : x.toBits.toNat % 2 ^ 63 = x.toBits.toNat - 2 ^ 63 := by omega
    rw [if_neg hsign, if_neg hsign, hmod]
    rfl

theorem bitUnits_le_of_floatKey {x y : Float} (h : Scalar.floatKey x ≤ Scalar.floatKey y) :
    bitUnits x ≤ bitUnits y := by
  have hpow : Nat.pow 2 63 = 2 ^ 63 := rfl
  simp only [Scalar.floatKey, hpow] at h
  rw [bitUnits, bitUnits]
  by_cases hx' : x.toBits.toNat < 2 ^ 63 <;> by_cases hy' : y.toBits.toNat < 2 ^ 63
  · rw [if_pos hx', if_pos hy'] at h ⊢
    exact Int.ofNat_le.mpr (bitSize_mono (Int.ofNat_le.mp h))
  · rw [if_pos hx', if_neg hy'] at h
    omega
  · rw [if_neg hx', if_pos hy']
    omega
  · rw [if_neg hx', if_neg hy'] at h ⊢
    have hbits : y.toBits.toNat - 2 ^ 63 ≤ x.toBits.toNat - 2 ^ 63 := by omega
    exact Int.neg_le_neg (Int.ofNat_le.mpr (bitSize_mono hbits))

/-- The key that doubles are sorted by agrees with their order. -/
theorem units_le_of_floatKey {x y : Float} (hx : x.isFinite = true) (hy : y.isFinite = true)
    (h : Scalar.floatKey x ≤ Scalar.floatKey y) : units x ≤ units y := by
  rw [units_eq_bitUnits hx, units_eq_bitUnits hy]
  exact bitUnits_le_of_floatKey h

end Segue.Double
