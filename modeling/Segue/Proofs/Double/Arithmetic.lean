import Segue.Proofs.Double.Units

/-!
Arithmetic of doubles. Main statements: a sum, a difference and a whole multiple of doubles have the
units of the exact result, rounded, as long as they are finite; and what is not too large is finite.
-/

namespace Segue.Double

open Float.Model (Format UnpackedFloat)
open Float.Model.UnpackedFloat

/-- The units of the double nearest to so many units. -/
def nearestUnits (count : Int) : Int := count.sign * rounded count.natAbs

theorem nearestUnits_natCast (size : Nat) : nearestUnits size = rounded size := by
  cases size with
  | zero => rfl
  | succ size => rw [nearestUnits, Int.natAbs_natCast, Int.sign_natCast_of_ne_zero (Nat.succ_ne_zero size), one_mul]

theorem nearestUnits_zero : nearestUnits 0 = 0 := by
  rw [nearestUnits, Int.sign_zero, zero_mul]

theorem nearestUnits_neg (count : Int) : nearestUnits (-count) = -nearestUnits count := by
  rw [nearestUnits, nearestUnits, Int.sign_neg, Int.natAbs_neg, neg_mul]

theorem nearestUnits_apply (sign : Sign) (size : Nat) :
    nearestUnits (sign.apply size) = sign.apply (rounded size) := by
  cases sign with
  | negative => exact (nearestUnits_neg size).trans (congrArg Neg.neg (nearestUnits_natCast size))
  | positive => exact nearestUnits_natCast size

/-- Rounding keeps the order of counts. -/
theorem nearestUnits_mono {count greater : Int} (h : count ≤ greater) : nearestUnits count ≤ nearestUnits greater := by
  obtain ⟨size, rfl | rfl⟩ := count.eq_nat_or_neg <;> obtain ⟨other, rfl | rfl⟩ := greater.eq_nat_or_neg
  · rw [nearestUnits_natCast, nearestUnits_natCast]
    exact Int.ofNat_le.mpr (rounded_mono (Int.ofNat_le.mp h))
  · have hsize : size = 0 := by omega
    have hother : other = 0 := by omega
    rw [hsize, hother]
    exact Int.le_refl _
  · rw [nearestUnits_neg, nearestUnits_natCast, nearestUnits_natCast]
    omega
  · rw [nearestUnits_neg, nearestUnits_neg, nearestUnits_natCast, nearestUnits_natCast]
    exact Int.neg_le_neg (Int.ofNat_le.mpr (rounded_mono (by omega)))

theorem rounded_sizeOf {significand : Nat} {exponent : Int} (h : IsCanonical significand exponent) :
    rounded (sizeOf significand exponent) = sizeOf significand exponent := rounded_mul_two_pow h.lt _

/-- A finite value that is rounded, though it may be too large for a double. -/
def IsRounded : UnpackedFloat → Prop
  | .finite _ significand exponent _ => IsCanonical significand exponent
  | .zero _ => True
  | _ => False

theorem IsRegular.isRounded {value : UnpackedFloat} (h : IsRegular value) : IsRounded value := by
  cases value with
  | finite => exact h.1
  | _ => exact h

theorem nearestUnits_unitsOf {value : UnpackedFloat} (h : IsRounded value) :
    nearestUnits (unitsOf value) = unitsOf value := by
  rcases value with _ | _ | _ | ⟨sign, significand, exponent, hpositive⟩
  · exact nearestUnits_zero
  · exact nearestUnits_zero
  · exact nearestUnits_zero
  · rw [unitsOf, nearestUnits_apply, rounded_sizeOf h]

theorem unpack_ofModel (value : UnpackedFloat) :
    (Float.ofModel (.pack value)).toModel.unpack = unpack Format.binary64 (pack Format.binary64 value) := rfl

theorem units_pack {value : UnpackedFloat} (h : IsRounded value)
    (hfinite : (Float.ofModel (.pack value)).isFinite = true) :
    units (.ofModel (.pack value)) = unitsOf value := by
  rcases value with _ | _ | sign | ⟨sign, significand, exponent, hpositive⟩
  · exact h.elim
  · exact h.elim
  · rw [units, unpack_ofModel, unpack_pack_zero]
  · have hexponent : exponent ≤ 971 := by
      by_contra hlarge
      change (unpack Format.binary64 (pack Format.binary64 _)).isFinite = true at hfinite
      rw [isFinite_pack_of_lt hpositive (Int.not_le.mp hlarge)] at hfinite
      cases hfinite
    rw [units, unpack_ofModel, unpack_pack hpositive h hexponent]

/-- The count of units from which on a value is too large for a double. -/
def overflow : Nat := 2 ^ 52 * 2 ^ 2046

theorem isFinite_pack {value : UnpackedFloat} (h : IsRounded value) (hsize : (unitsOf value).natAbs < overflow) :
    (Float.ofModel (.pack value)).isFinite = true := by
  change (unpack Format.binary64 (pack Format.binary64 value)).isFinite = true
  rcases value with _ | _ | sign | ⟨sign, significand, exponent, hpositive⟩
  · exact h.elim
  · exact h.elim
  · rw [unpack_pack_zero]
    rfl
  · have hexponent : exponent ≤ 971 := by
      by_contra hlarge
      have hnormal : 2 ^ 52 ≤ significand := h.normal.resolve_right (by omega)
      have hlarge : 2046 ≤ (exponent + 1074).toNat := by omega
      have hlower : overflow ≤ sizeOf significand exponent := by
        rw [overflow, sizeOf]
        gcongr
        decide
      have habs : (unitsOf (.finite sign significand exponent hpositive)).natAbs = sizeOf significand exponent := by
        cases sign
        · exact (Int.natAbs_neg _).trans (Int.natAbs_natCast _)
        · exact Int.natAbs_natCast _
      rw [habs] at hsize
      exact absurd hlower hsize.not_ge
    rw [unpack_pack hpositive h hexponent]
    rfl

/-! ### Operations -/

/-- A significand with its sign and an exponent are rounded as so many units. -/
theorem normalize_units (significand : Int) {exponent : Int} (hleast : -1074 ≤ exponent) (zeroSign : Sign) :
    IsRounded (normalize Format.binary64 significand exponent zeroSign) ∧
      unitsOf (normalize Format.binary64 significand exponent zeroSign) =
        nearestUnits (significand * 2 ^ (exponent + 1074).toNat) := by
  have hround : ∀ (sign : Sign) (size : Nat), size ≠ 0 →
      IsRounded (round Format.binary64 sign size exponent) ∧
        unitsOf (round Format.binary64 sign size exponent) = sign.apply (rounded (sizeOf size exponent)) := by
    intro sign size hsize
    have hne : sizeOf size exponent ≠ 0 := Nat.mul_ne_zero hsize (Nat.two_pow_pos _).ne'
    have hexponent : exponent = ((exponent + 1074).toNat : Int) - (0 : Nat) - 1074 := by omega
    obtain ⟨left, final, hleft, hvalue, hcanonical, hfinal⟩ :=
      round_size sign (exponent + 1074).toNat 0 hne (Nat.mul_one _) hexponent
    rw [hvalue]
    exact ⟨hcanonical, congrArg (fun size : Nat => sign.apply size) hfinal⟩
  have hsize : ∀ size : Nat, ((size : Int) * 2 ^ (exponent + 1074).toNat) = sizeOf size exponent := by
    intro size
    rw [sizeOf]
    push_cast
    rfl
  rcases lt_trichotomy significand 0 with hlt | rfl | hlt
  · obtain ⟨size, rfl⟩ : ∃ size : Nat, significand = -size := ⟨significand.natAbs, by omega⟩
    simp only [UnpackedFloat.normalize, Int.compare_eq_lt.mpr hlt, neg_neg, Int.toNat_natCast]
    rw [neg_mul, hsize, nearestUnits_neg, nearestUnits_natCast]
    exact hround .negative size (by omega)
  · simp only [UnpackedFloat.normalize, Int.compare_eq_eq.mpr rfl]
    rw [zero_mul, nearestUnits_zero]
    exact ⟨trivial, rfl⟩
  · obtain ⟨size, rfl⟩ : ∃ size : Nat, significand = size := ⟨significand.natAbs, by omega⟩
    simp only [UnpackedFloat.normalize, Int.compare_eq_gt.mpr hlt, Int.toNat_natCast]
    rw [hsize, nearestUnits_natCast]
    exact hround .positive size (by omega)

theorem apply_shiftLeft (sign : Sign) (significand : Nat) {exponent lower : Int} (hleast : -1074 ≤ lower)
    (hle : lower ≤ exponent) :
    sign.apply ((significand <<< (exponent - lower).toNat : Nat) : Int) * 2 ^ (lower + 1074).toNat =
      sign.apply (sizeOf significand exponent) := by
  have hsize : (significand <<< (exponent - lower).toNat) * 2 ^ (lower + 1074).toNat = sizeOf significand exponent := by
    rw [Nat.shiftLeft_eq, Nat.mul_assoc, ← Nat.pow_add, sizeOf]
    congr 2
    omega
  rw [← hsize]
  push_cast
  cases sign
  · exact neg_mul _ _
  · rfl

theorem apply_neg (sign : Sign) (count : Int) : (-sign).apply count = -sign.apply count := by
  cases sign
  · exact (neg_neg count).symm
  · rfl

theorem unitsOf_neg (value : UnpackedFloat) : unitsOf value.neg = -unitsOf value := by
  rcases value with _ | _ | _ | ⟨sign, significand, exponent, hpositive⟩
  · rfl
  · rfl
  · rfl
  · exact apply_neg sign _

theorem IsRegular.neg {value : UnpackedFloat} (h : IsRegular value) : IsRegular value.neg := by
  cases value <;> exact h

theorem sub_eq_add_neg (value other : UnpackedFloat) :
    sub Format.binary64 value other = add Format.binary64 value other.neg := by
  rcases value with _ | _ | _ | ⟨sign, significand, exponent, hpositive⟩ <;>
    rcases other with _ | _ | _ | ⟨sign', significand', exponent', hpositive'⟩ <;> try rfl
  simp only [sub, add, neg, apply_neg, Int.sub_eq_add_neg]

/-- A sum of doubles is the exact one, rounded. -/
theorem unitsOf_add {value other : UnpackedFloat} (h : IsRegular value) (hother : IsRegular other) :
    IsRounded (add Format.binary64 value other) ∧
      unitsOf (add Format.binary64 value other) = nearestUnits (unitsOf value + unitsOf other) := by
  rcases value with _ | _ | sign | ⟨sign, significand, exponent, hpositive⟩
  · exact h.elim
  · exact h.elim
  · have hzero : unitsOf (.zero sign) = 0 := rfl
    rw [hzero, zero_add, nearestUnits_unitsOf hother.isRounded]
    rcases other with _ | _ | sign' | _
    · exact hother.elim
    · exact hother.elim
    · rw [add]
      split <;> exact ⟨trivial, rfl⟩
    · exact ⟨hother.1, rfl⟩
  · rcases other with _ | _ | sign' | ⟨sign', significand', exponent', hpositive'⟩
    · exact hother.elim
    · exact hother.elim
    · have hzero : unitsOf (.zero sign') = 0 := rfl
      rw [hzero, add_zero, nearestUnits_unitsOf h.isRounded]
      exact ⟨h.1, rfl⟩
    · -- both are counted from the smaller exponent on, and there the sum is exact
      have hlower : -1074 ≤ min exponent exponent' := le_min h.1.least hother.1.least
      have hsum := normalize_units
        (sign.apply ((significand <<< (exponent - min exponent exponent').toNat : Nat) : Int) +
          sign'.apply ((significand' <<< (exponent' - min exponent exponent').toNat : Nat) : Int)) hlower .positive
      rw [add_mul, apply_shiftLeft sign significand hlower (min_le_left _ _),
        apply_shiftLeft sign' significand' hlower (min_le_right _ _)] at hsum
      exact hsum

theorem unitsOf_sub {value other : UnpackedFloat} (h : IsRegular value) (hother : IsRegular other) :
    IsRounded (sub Format.binary64 value other) ∧
      unitsOf (sub Format.binary64 value other) = nearestUnits (unitsOf value - unitsOf other) := by
  rw [sub_eq_add_neg, Int.sub_eq_add_neg, ← unitsOf_neg]
  exact unitsOf_add h hother.neg

@[irreducible] def perOne : Nat := 2 ^ 1074

theorem perOne_eq : perOne = 2 ^ 1074 := by
  unfold perOne
  rfl

theorem perOne_pos : 0 < perOne := by
  rw [perOne_eq]
  positivity

theorem apply_mul (sign : Sign) (count factor : Int) : sign.apply count * factor = sign.apply (count * factor) := by
  cases sign
  · exact neg_mul _ _
  · rfl

/-- A value from one up has all its bits. -/
theorem IsCanonical.normal_of_perOne_le {significand : Nat} {exponent : Int} (h : IsCanonical significand exponent)
    (hle : perOne ≤ sizeOf significand exponent) : 2 ^ 52 ≤ significand := by
  refine h.normal.resolve_right ?_
  rintro rfl
  have hperOne : 2 ^ 53 ≤ perOne := by
    rw [perOne_eq]
    gcongr <;> decide
  have hsmall : sizeOf significand (-1074) = significand := Nat.mul_one _
  have hlt := h.lt
  omega

/-- The product with a whole number is brought to its bits from above, so that nothing is lost
before it is rounded. -/
theorem roundWithAccuracy_mul {significand significand' count : Nat} {exponent exponent' : Int} (sign : Sign)
    (hpositive : 0 < significand) (hleast : -1074 ≤ exponent) (h' : IsCanonical significand' exponent')
    (hcount : count ≠ 0) (hsame : sizeOf significand' exponent' = count * perOne) :
    ∃ left final hleft,
      roundWithAccuracy Format.binary64 sign (significand * significand') (exponent + exponent') .exact =
        .finite sign left final hleft ∧ IsCanonical left final ∧
      sizeOf left final = rounded (sizeOf significand exponent * count) := by
  have hlarge : perOne ≤ count * perOne := Nat.le_mul_of_pos_left _ (Nat.pos_of_ne_zero hcount)
  have hnormal : 2 ^ 52 ≤ significand' := h'.normal_of_perOne_le (hsame ▸ hlarge)
  have hne : significand * significand' ≠ 0 := Nat.mul_ne_zero hpositive.ne' (by omega)
  have hlog : 52 ≤ (significand * significand').log2 :=
    (Nat.le_log2 hne).mpr (hnormal.trans (Nat.le_mul_of_pos_left _ hpositive))
  have hsize : sizeOf significand exponent * count ≠ 0 := Nat.mul_ne_zero (sizeOf_pos hpositive exponent).ne' hcount
  obtain ⟨down, hdown⟩ : ∃ down : Nat, down = 1074 := ⟨_, rfl⟩
  have hproduct : sizeOf significand exponent * count * 2 ^ down =
      significand * significand' * 2 ^ ((exponent + 1074).toNat + (exponent' + 1074).toNat) := by
    rw [hdown, Nat.mul_assoc, ← perOne_eq, ← hsame, sizeOf, sizeOf, Nat.pow_add]
    ring
  have hleast' := h'.least
  have hexponent : exponent + exponent' =
      ((exponent + 1074).toNat + (exponent' + 1074).toNat : Nat) - (down : Int) - 1074 := by omega
  exact roundWithAccuracy_size sign _ down hsize hproduct hexponent (by omega)

/-- A whole multiple of a double is the exact one, rounded. -/
theorem unitsOf_mul {value other : UnpackedFloat} {count : Nat} (h : IsRegular value) (hother : IsRegular other)
    (hcount : unitsOf other = (count * perOne : Nat)) :
    IsRounded (mul Format.binary64 value other) ∧
      unitsOf (mul Format.binary64 value other) = nearestUnits (unitsOf value * count) := by
  rcases value with _ | _ | sign | ⟨sign, significand, exponent, hpositive⟩
  · exact h.elim
  · exact h.elim
  · have hzero : unitsOf (.zero sign) = 0 := rfl
    rw [hzero, zero_mul, nearestUnits_zero]
    rcases other with _ | _ | _ | _
    · exact hother.elim
    · exact hother.elim
    · exact ⟨trivial, rfl⟩
    · exact ⟨trivial, rfl⟩
  · rcases other with _ | _ | sign' | ⟨sign', significand', exponent', hpositive'⟩
    · exact hother.elim
    · exact hother.elim
    · have hnone : count = 0 := by
        have hproduct : count * perOne = 0 := (Int.ofNat.inj hcount).symm
        exact (Nat.mul_eq_zero.mp hproduct).resolve_right perOne_pos.ne'
      rw [hnone, Int.natCast_zero, mul_zero, nearestUnits_zero]
      exact ⟨trivial, rfl⟩
    · have hsize' := sizeOf_pos hpositive' exponent'
      obtain ⟨rfl, hsame⟩ : sign' = .positive ∧ sizeOf significand' exponent' = count * perOne := by
        cases sign'
        · have hneg : -(sizeOf significand' exponent' : Int) = (count * perOne : Nat) := hcount
          omega
        · exact ⟨rfl, Int.ofNat.inj hcount⟩
      have hnone : count ≠ 0 := by
        rintro rfl
        omega
      obtain ⟨left, final, hleft, hvalue, hcanonical, hfinal⟩ :=
        roundWithAccuracy_mul sign hpositive h.1.least hother.1 hnone hsame
      have hsign : sign * .positive = sign := by cases sign <;> rfl
      rw [mul, hsign, hvalue]
      refine ⟨hcanonical, ?_⟩
      have hunits : unitsOf (.finite sign significand exponent hpositive) * (count : Int) =
          sign.apply ((sizeOf significand exponent * count : Nat) : Int) := by
        push_cast
        exact apply_mul sign _ _
      rw [hunits, nearestUnits_apply, ← hfinal]
      rfl

theorem two_pow_mul_perOne (shift : Nat) : 2 ^ (shift + 1074) = 2 ^ shift * perOne := by
  rw [perOne_eq]
  exact pow_add 2 shift 1074

theorem perOne_eq_mul {exponent : Int} (hleast : -1074 ≤ exponent) (hpart : exponent < 0) :
    perOne = 2 ^ (-exponent).toNat * 2 ^ (exponent + 1074).toNat := by
  rw [perOne_eq, ← pow_add]
  congr 1
  omega

theorem sizeOf_of_nonneg (significand : Nat) {exponent : Int} (h : 0 ≤ exponent) :
    sizeOf significand exponent = significand * 2 ^ exponent.toNat * perOne := by
  have hexponent : (exponent + 1074).toNat = exponent.toNat + 1074 := by omega
  rw [sizeOf, hexponent, two_pow_mul_perOne, Nat.mul_assoc]

theorem sizeOf_of_neg (significand : Nat) {exponent : Int} (hleast : -1074 ≤ exponent) (h : exponent < 0) :
    sizeOf significand exponent * 2 ^ (-exponent).toNat = significand * perOne := by
  rw [sizeOf, perOne_eq_mul hleast h]
  ring

/-- The whole part of a size is what its significand and its exponent have before the point. -/
theorem sizeOf_div_perOne (significand : Nat) {exponent : Int} (hleast : -1074 ≤ exponent) :
    sizeOf significand exponent / perOne = significand * 2 ^ exponent.toNat / 2 ^ (-exponent).toNat := by
  rcases le_or_gt 0 exponent with hwhole | hpart
  · have hnone : (-exponent).toNat = 0 := by omega
    rw [sizeOf_of_nonneg significand hwhole, Nat.mul_div_cancel _ perOne_pos, hnone, Nat.pow_zero, Nat.div_one]
  · have hnone : exponent.toNat = 0 := by omega
    rw [sizeOf, perOne_eq_mul hleast hpart, Nat.mul_div_mul_right _ _ (Nat.two_pow_pos _), hnone, Nat.pow_zero,
      Nat.mul_one]

theorem roundToInt_positive (significand : Nat) {exponent : Int} (hleast : -1074 ≤ exponent) :
    roundToInt .positive significand exponent = (sizeOf significand exponent / perOne : Nat) := by
  have hshift : (0 - (exponent - (exponent.toNat : Int))).toNat = (-exponent).toNat := by omega
  simp only [roundToInt, decreaseExponent, shiftToExponent, shiftRight_exact, Sign.apply, Nat.shiftLeft_eq,
    Int.sub_zero, hshift, sizeOf_div_perOne significand hleast]

/-- A double from zero up is cut down to its whole part. -/
theorem toNat_toUInt64 {x : Float} {count : Nat} (hfinite : x.isFinite = true) (hcount : units x = count)
    (hlt : count < 2 ^ 64 * perOne) : x.toUInt64.toNat = count / perOne := by
  have hregular := isRegular_of_isFinite hfinite
  have htoInt : x.toModel.unpack.toInt 0 (UInt64.size - 1) = (count / perOne : Nat) := by
    rw [units] at hcount
    generalize x.toModel.unpack = value at hregular hcount ⊢
    rcases value with _ | _ | sign | ⟨sign, significand, exponent, hpositive⟩
    · exact hregular.elim
    · exact hregular.elim
    · have hzero : count = 0 := (Int.ofNat.inj hcount).symm
      rw [hzero, Nat.zero_div]
      rfl
    · have hsize := sizeOf_pos hpositive exponent
      cases sign
      · have hneg : -(sizeOf significand exponent : Int) = count := hcount
        omega
      · have hsame : sizeOf significand exponent = count := Int.ofNat.inj hcount
        rw [← hsame]
        exact roundToInt_positive significand hregular.1.least
  have hword : count / perOne < UInt64.size := (Nat.div_lt_iff_lt_mul perOne_pos).mpr hlt
  change (UInt64.ofNatClamp (x.toModel.unpack.toInt 0 (UInt64.size - 1)).toNat).toNat = _
  rw [htoInt, Int.toNat_natCast, UInt64.ofNatClamp_eq_ofNat _ hword]
  exact UInt64.toNat_ofNat_of_lt hword

theorem overflow_eq : overflow = 2 ^ 1024 * perOne := by
  have hpow : ∀ m n : Nat, 2 ^ m * 2 ^ n = 2 ^ (m + n) := fun m n => (pow_add 2 m n).symm
  rw [overflow, perOne_eq, hpow, hpow]

/-- A whole number of so many bits is a double. -/
theorem toFloat_whole {n : UInt64} (h : n.toNat < 2 ^ 53) :
    n.toFloat.isFinite = true ∧ units n.toFloat = (n.toNat * perOne : Nat) := by
  have hexact : rounded (n.toNat * perOne) = n.toNat * perOne := by
    rw [perOne_eq]
    exact rounded_mul_two_pow h 1074
  have hscale : (2 : Int) ^ ((0 : Int) + 1074).toNat = perOne := by
    rw [perOne_eq]
    exact (Nat.cast_pow 2 1074).symm
  obtain ⟨hrounded, hunits⟩ : IsRounded (ofUInt64 Format.binary64 n) ∧
      unitsOf (ofUInt64 Format.binary64 n) = nearestUnits ((n.toNat : Int) * 2 ^ ((0 : Int) + 1074).toNat) :=
    normalize_units n.toNat (by decide) .positive
  rw [hscale, ← Int.natCast_mul, nearestUnits_natCast, hexact] at hunits
  have hfinite : n.toFloat.isFinite = true := by
    refine isFinite_pack hrounded ?_
    rw [hunits, Int.natAbs_natCast, overflow_eq]
    refine Nat.mul_lt_mul_of_pos_right (h.trans ?_) perOne_pos
    gcongr <;> decide
  exact ⟨hfinite, (units_pack hrounded hfinite).trans hunits⟩

variable {x y : Float}

theorem natAbs_nearestUnits (count : Int) : (nearestUnits count).natAbs = rounded count.natAbs := by
  obtain ⟨size, rfl | rfl⟩ := count.eq_nat_or_neg
  · rw [nearestUnits_natCast, Int.natAbs_natCast, Int.natAbs_natCast]
  · rw [nearestUnits_neg, nearestUnits_natCast, Int.natAbs_neg, Int.natAbs_neg, Int.natAbs_natCast, Int.natAbs_natCast]

theorem nearestUnits_units (hx : x.isFinite = true) : nearestUnits (units x) = units x :=
  nearestUnits_unitsOf (isRegular_of_isFinite hx).isRounded

theorem units_add (hx : x.isFinite = true) (hy : y.isFinite = true) (h : (x + y).isFinite = true) :
    units (x + y) = nearestUnits (units x + units y) := by
  obtain ⟨hrounded, hunits⟩ := unitsOf_add (isRegular_of_isFinite hx) (isRegular_of_isFinite hy)
  exact (units_pack hrounded h).trans hunits

theorem units_sub (hx : x.isFinite = true) (hy : y.isFinite = true) (h : (x - y).isFinite = true) :
    units (x - y) = nearestUnits (units x - units y) := by
  obtain ⟨hrounded, hunits⟩ := unitsOf_sub (isRegular_of_isFinite hx) (isRegular_of_isFinite hy)
  exact (units_pack hrounded h).trans hunits

theorem isFinite_of_pack {value : UnpackedFloat} (h : (Float.ofModel (.pack value)).isFinite = true) :
    value.isFinite = true := by
  cases value with
  | infinity sign => cases sign <;> cases h
  | notANumber => cases h
  | zero | finite => rfl

/-- A sum is finite only when what is added is. -/
theorem finite_of_add (h : (x + y).isFinite = true) : x.isFinite = true ∧ y.isFinite = true := by
  have hsum : (add Format.binary64 x.toModel.unpack y.toModel.unpack).isFinite = true := isFinite_of_pack h
  change x.toModel.unpack.isFinite = true ∧ y.toModel.unpack.isFinite = true
  generalize x.toModel.unpack = value at hsum ⊢
  generalize y.toModel.unpack = another at hsum ⊢
  cases value <;> cases another <;> first
    | exact ⟨rfl, rfl⟩
    | cases hsum
    | (simp only [add] at hsum
       split at hsum <;> cases hsum)

theorem finite_of_neg (h : (-x).isFinite = true) : x.isFinite = true := by
  have hvalue : x.toModel.unpack.neg.isFinite = true := isFinite_of_pack h
  change x.toModel.unpack.isFinite = true
  generalize x.toModel.unpack = value at hvalue ⊢
  cases value <;> first
    | rfl
    | cases hvalue

/-- A product is finite only when its factors are. -/
theorem finite_of_mul (h : (x * y).isFinite = true) : x.isFinite = true ∧ y.isFinite = true := by
  have hproduct : (mul Format.binary64 x.toModel.unpack y.toModel.unpack).isFinite = true := isFinite_of_pack h
  change x.toModel.unpack.isFinite = true ∧ y.toModel.unpack.isFinite = true
  generalize x.toModel.unpack = value at hproduct ⊢
  generalize y.toModel.unpack = another at hproduct ⊢
  cases value <;> cases another <;> first
    | exact ⟨rfl, rfl⟩
    | cases hproduct

theorem isFinite_add (hx : x.isFinite = true) (hy : y.isFinite = true)
    (h : rounded (units x + units y).natAbs < overflow) : (x + y).isFinite = true := by
  obtain ⟨hrounded, hunits⟩ := unitsOf_add (isRegular_of_isFinite hx) (isRegular_of_isFinite hy)
  exact isFinite_pack hrounded (by rwa [hunits, natAbs_nearestUnits])

theorem isFinite_sub (hx : x.isFinite = true) (hy : y.isFinite = true)
    (h : rounded (units x - units y).natAbs < overflow) : (x - y).isFinite = true := by
  obtain ⟨hrounded, hunits⟩ := unitsOf_sub (isRegular_of_isFinite hx) (isRegular_of_isFinite hy)
  exact isFinite_pack hrounded (by rwa [hunits, natAbs_nearestUnits])

theorem units_mul {count : Nat} (hx : x.isFinite = true) (hy : y.isFinite = true)
    (hcount : units y = (count * perOne : Nat)) (h : (x * y).isFinite = true) :
    units (x * y) = nearestUnits (units x * count) := by
  obtain ⟨hrounded, hunits⟩ := unitsOf_mul (isRegular_of_isFinite hx) (isRegular_of_isFinite hy) hcount
  exact (units_pack hrounded h).trans hunits

/-- A whole multiple of a double is finite when the exact one is not too large, and then it is that
one, rounded. -/
theorem isFinite_mul {count : Nat} (hx : x.isFinite = true) (hy : y.isFinite = true)
    (hcount : units y = (count * perOne : Nat)) (h : rounded (units x * count).natAbs < overflow) :
    (x * y).isFinite = true ∧ units (x * y) = nearestUnits (units x * count) := by
  obtain ⟨hrounded, hunits⟩ := unitsOf_mul (isRegular_of_isFinite hx) (isRegular_of_isFinite hy) hcount
  have hfinite : (x * y).isFinite = true := isFinite_pack hrounded (by rwa [hunits, natAbs_nearestUnits])
  exact ⟨hfinite, units_mul hx hy hcount hfinite⟩

theorem sign_mul_swap (sign sign' : Sign) : sign * sign' = sign' * sign := by
  cases sign <;> cases sign' <;> rfl

theorem mul_swap (x y : Float) : x * y = y * x := by
  have hswap : ∀ value other, mul Format.binary64 value other = mul Format.binary64 other value := by
    intro value other
    rcases value with _ | _ | _ | _ <;> rcases other with _ | _ | _ | _ <;>
      simp only [mul, sign_mul_swap, Nat.mul_comm, Int.add_comm]
  exact congrArg (fun value => Float.ofModel (.pack value)) (hswap _ _)

theorem exists_sizeOf {count : Nat} (hx : x.isFinite = true) (hcount : units x = count) :
    ∃ significand exponent, IsCanonical significand exponent ∧ sizeOf significand exponent = count := by
  have hregular := isRegular_of_isFinite hx
  rw [units] at hcount
  generalize x.toModel.unpack = value at hregular hcount
  rcases value with _ | _ | sign | ⟨sign, significand, exponent, hpositive⟩
  · exact hregular.elim
  · exact hregular.elim
  · exact ⟨0, -1074, ⟨by decide, by decide, .inr rfl⟩, Int.ofNat.inj hcount⟩
  · refine ⟨significand, exponent, hregular.1, ?_⟩
    have hsize := sizeOf_pos hpositive exponent
    cases sign
    · have hneg : -(sizeOf significand exponent : Int) = count := hcount
      omega
    · exact Int.ofNat.inj hcount

/-- The part of a double behind the point is a double. -/
theorem rounded_mod_perOne {count : Nat} (hx : x.isFinite = true) (hcount : units x = count) :
    rounded (count % perOne) = count % perOne := by
  obtain ⟨significand, exponent, hcanonical, rfl⟩ := exists_sizeOf hx hcount
  have hleast := hcanonical.least
  rcases le_or_gt 0 exponent with hwhole | hpart
  · rw [sizeOf_of_nonneg significand hwhole, Nat.mul_mod_left]
    rfl
  · rw [sizeOf, perOne_eq_mul hleast hpart, Nat.mul_mod_mul_right]
    exact rounded_mul_two_pow ((Nat.mod_le _ _).trans_lt hcanonical.lt) _

/-- A double from zero up less its whole part is its part behind the point, without rounding. -/
theorem isFinite_sub_whole {count : Nat} (hx : x.isFinite = true) (hcount : units x = count)
    (hlt : count < 2 ^ 53 * perOne) :
    (x - x.toUInt64.toFloat).isFinite = true ∧ units (x - x.toUInt64.toFloat) = (count % perOne : Nat) := by
  have hword : count < 2 ^ 64 * perOne := hlt.trans (Nat.mul_lt_mul_of_pos_right (by decide) perOne_pos)
  have hwhole := toNat_toUInt64 hx hcount hword
  have hbits : x.toUInt64.toNat < 2 ^ 53 := by
    rw [hwhole]
    exact (Nat.div_lt_iff_lt_mul perOne_pos).mpr hlt
  obtain ⟨hfinite, hunits⟩ := toFloat_whole hbits
  have hrest : units x - units x.toUInt64.toFloat = (count % perOne : Nat) := by
    have hdivision := Nat.div_add_mod' count perOne
    rw [hcount, hunits, hwhole]
    omega
  have hsmall : count % perOne < overflow := by
    rw [overflow_eq]
    exact (Nat.mod_lt _ perOne_pos).trans_le (Nat.le_mul_of_pos_left _ (by positivity))
  have hdifference : (x - x.toUInt64.toFloat).isFinite = true := by
    refine isFinite_sub hx hfinite ?_
    rwa [hrest, Int.natAbs_natCast, rounded_mod_perOne hx hcount]
  refine ⟨hdifference, ?_⟩
  rw [units_sub hx hfinite hdifference, hrest, nearestUnits_natCast, rounded_mod_perOne hx hcount]

end Segue.Double
