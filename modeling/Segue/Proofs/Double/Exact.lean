import Mathlib.Algebra.Order.Field.Rat
import Mathlib.Tactic.FieldSimp
import Mathlib.Tactic.Linarith
import Segue.Proofs.Double.Order

/-!
Operations on doubles that do not round. Main statements: a double above two has an exact half, one
below one half an exact double, and a double from one half to two an exact distance from one.
-/

namespace Segue.Double

/-- The number that a double stands for. -/
def value (x : Float) : Rat := units x / perOne

theorem rounded_count {count : Nat} (h : count < 2 ^ 53) : rounded (count * perOne) = count * perOne := by
  rw [perOne_eq]
  exact rounded_mul_two_pow h 1074

/-- So many bits in front of zeros, or a one in front of so many. -/
theorem rounded_of_two_pow_dvd {size shift : Nat} (hdvd : 2 ^ shift ∣ size) (hle : size ≤ 2 ^ (53 + shift)) :
    rounded size = size := by
  obtain ⟨significand, rfl⟩ := hdvd
  rw [Nat.mul_comm] at hle ⊢
  rcases Nat.lt_or_ge significand (2 ^ 53) with hlt | hge
  · exact rounded_mul_two_pow hlt shift
  · have hsame : significand * 2 ^ shift = 1 * 2 ^ (53 + shift) := by
      refine Nat.le_antisymm (hle.trans_eq (Nat.one_mul _).symm) ?_
      rw [Nat.one_mul, Nat.pow_add]
      exact Nat.mul_le_mul_right _ hge
    rw [hsame]
    exact rounded_mul_two_pow (by decide) _

theorem two_pow_eq_perOne {bits : Nat} (h : bits = 1074) : 2 ^ bits = perOne := by rw [h, perOne_eq]

theorem two_pow_mul_two {bits : Nat} (h : bits + 1 = 1074) : 2 ^ bits * 2 = perOne := by
  rw [← Nat.pow_succ, two_pow_eq_perOne h]

theorem nearestUnits_of_rounded {count : Int} (h : rounded count.natAbs = count.natAbs) :
    nearestUnits count = count := by
  rw [nearestUnits, h]
  exact Int.sign_mul_natAbs count

theorem roundedRatio_mul_self (quotient : Nat) {divisor : Nat} (hpositive : 0 < divisor) :
    roundedRatio (quotient * divisor) divisor = rounded quotient := by
  have hratio := roundedRatio_mul_right quotient 1 hpositive
  rw [Nat.one_mul] at hratio
  rw [hratio, roundedRatio, rounded, Nat.div_one, Nat.one_mul]

variable {x y : Float}

/-- The bits of a large double stand in front of many zeros. -/
theorem exists_two_pow_dvd {count shift : Nat} (hx : x.isFinite = true) (hcount : units x = count)
    (hle : 2 ^ (53 + shift) ≤ count) : ∃ significand, significand < 2 ^ 53 ∧
      ∃ more, shift < more ∧ count = significand * 2 ^ more := by
  obtain ⟨significand, exponent, hcanonical, rfl⟩ := exists_sizeOf hx hcount
  refine ⟨significand, hcanonical.lt, _, ?_, rfl⟩
  have hlt : 2 ^ (53 + shift) < 2 ^ (53 + (exponent + 1074).toNat) := by
    refine hle.trans_lt ?_
    rw [sizeOf, Nat.pow_add 2 53 (exponent + 1074).toNat]
    exact Nat.mul_lt_mul_of_pos_right hcanonical.lt (Nat.two_pow_pos _)
  have hshift := (Nat.pow_lt_pow_iff_right (by decide)).mp hlt
  omega

theorem perOne_pos_rat : (0 : Rat) < perOne := Nat.cast_pos.mpr perOne_pos

theorem lt_iff_value (hx : x.isFinite = true) (hy : y.isFinite = true) : x < y ↔ value x < value y := by
  rw [lt_iff_units hx hy, value, value, div_lt_div_iff_of_pos_right perOne_pos_rat, Int.cast_lt]

theorem le_iff_value (hx : x.isFinite = true) (hy : y.isFinite = true) : x ≤ y ↔ value x ≤ value y := by
  rw [le_iff_units hx hy, value, value, div_le_div_iff_of_pos_right perOne_pos_rat, Int.cast_le]

/-- What is so many units large is so many ones large. -/
theorem value_eq_iff {number : Rat} : value x = number ↔ (units x : Rat) = number * perOne :=
  div_eq_iff perOne_pos_rat.ne'

theorem ofNat_exact {count : Nat} (h : count < 2 ^ 53) :
    (Float.ofNat count).isFinite = true ∧ units (Float.ofNat count) = (count * perOne : Nat) := by
  have hcount := ofNat_rounded (h.trans (by decide))
  rwa [rounded_count h] at hcount

theorem value_ofNat {count : Nat} (h : count < 2 ^ 53) : value (Float.ofNat count) = count := by
  rw [value_eq_iff, (ofNat_exact h).2, Int.cast_natCast, Nat.cast_mul]

theorem zero_exact : (0 : Float).isFinite = true ∧ value 0 = 0 :=
  ⟨(@ofNat_exact 0 (by decide)).1, @value_ofNat 0 (by decide)⟩

theorem two_exact : (2 : Float).isFinite = true ∧ value 2 = 2 :=
  ⟨(@ofNat_exact 2 (by decide)).1, @value_ofNat 2 (by decide)⟩

theorem one_exact : (1 : Float).isFinite = true ∧ units 1 = perOne := by
  obtain ⟨hfinite, hunits⟩ := @ofNat_exact 1 (by decide)
  exact ⟨hfinite, hunits.trans (by rw [Nat.one_mul])⟩

theorem sixty_exact : (60.0 : Float).isFinite = true ∧ units 60.0 = (60 * perOne : Nat) := by
  have hliteral : (60.0 : Float) = Float.ofNat 60 := by decide +kernel
  rw [hliteral]
  exact ofNat_exact (by decide)

theorem half_exact : (0.5 : Float).isFinite = true ∧ units 0.5 * 2 = perOne := by
  have hbits : (0.5 : Float) = Float.ofBits 0x3FE0000000000000 := by decide +kernel
  have hfinite : (Float.ofBits 0x3FE0000000000000).isFinite = true := by decide +kernel
  rw [hbits, units_eq_bitUnits hfinite]
  exact ⟨hfinite, by decide +kernel⟩

theorem value_half : value 0.5 = 1 / 2 := by
  have hunits : (units 0.5 : Rat) * 2 = perOne := by exact_mod_cast half_exact.2
  rw [value_eq_iff]
  linarith

/-- A finite double is smaller than the first power of two that is none. -/
theorem value_lt (hx : x.isFinite = true) {bits : Nat} (h : bits = 1024) : value x < 2 ^ bits := by
  subst h
  have hlt : (units x).natAbs < 2 ^ 1024 * perOne := overflow_eq ▸ natAbs_unitsOf_lt (isRegular_of_isFinite hx)
  have hunits : units x < (2 ^ 1024 * perOne : Nat) := Int.le_natAbs.trans_lt (Int.ofNat_lt.mpr hlt)
  rw [value, div_lt_iff₀ perOne_pos_rat]
  calc (units x : Rat) < ((2 ^ 1024 * perOne : Nat) : Int) := Int.cast_lt.mpr hunits
    _ = 2 ^ 1024 * perOne := by rw [Int.cast_natCast, Nat.cast_mul, Nat.cast_pow, Nat.cast_ofNat]

/-- A positive double is no smaller than the least one. -/
theorem one_le_value_mul (hpositive : 0 < value x) {bits : Nat} (h : bits = 1074) : 1 ≤ value x * 2 ^ bits := by
  have hscaled : value x * 2 ^ bits = units x := by
    rw [← Nat.cast_ofNat, ← Nat.cast_pow, two_pow_eq_perOne h]
    exact div_mul_cancel₀ _ perOne_pos_rat.ne'
  have hunits : 0 < units x := by
    have hsome : (0 : Rat) < units x := by
      rw [← hscaled]
      positivity
    exact_mod_cast hsome
  rw [hscaled]
  exact_mod_cast hunits

/-- A quotient that is a double is what division gives. -/
theorem div_exact {size divisor quotient : Nat} (hx : x.isFinite = true) (hy : y.isFinite = true)
    (hsize : units x = size) (hdivisor : units y = divisor) (hpositive : 0 < divisor)
    (hquotient : size * perOne = quotient * divisor) (hdouble : rounded quotient = quotient)
    (hlt : quotient < overflow) :
    (x / y).isFinite = true ∧ value (x / y) * value y = value x := by
  have hratio : roundedRatio (size * perOne) divisor = quotient := by
    rw [hquotient, roundedRatio_mul_self quotient hpositive, hdouble]
  obtain ⟨hfinite, hunits⟩ := isFinite_div hx hy hsize hdivisor hpositive (by rwa [hratio])
  refine ⟨hfinite, ?_⟩
  have hproduct : (size : Rat) * perOne = quotient * divisor := by exact_mod_cast hquotient
  have hnonzero := perOne_pos_rat.ne'
  rw [value, value, value, hunits, hratio, hdivisor, hsize]
  simp only [Int.cast_natCast]
  field_simp
  linarith

theorem natCast_units (h : 0 ≤ value x) : ∃ count : Nat, units x = count := by
  refine Int.eq_ofNat_of_zero_le ?_
  rw [value, le_div_iff₀ perOne_pos_rat, zero_mul] at h
  exact_mod_cast h

theorem div_two (hx : x.isFinite = true) (h : 2 < value x) : (x / 2).isFinite = true ∧ value (x / 2) * 2 = value x := by
  obtain ⟨htwo, hdivisor⟩ := @ofNat_exact 2 (by decide)
  obtain ⟨count, hcount⟩ := natCast_units (h.le.trans' (by decide))
  have hlt : 2 * perOne < count := by
    rw [value, lt_div_iff₀ perOne_pos_rat, hcount] at h
    exact_mod_cast h
  have hlarge : 2 ^ (53 + 0) ≤ count := by
    have hone : 2 ^ 53 ≤ perOne := by
      rw [perOne_eq]
      gcongr <;> decide
    omega
  have hless : count < overflow := by
    have hunits := natAbs_unitsOf_lt (isRegular_of_isFinite hx)
    rwa [← units, hcount, Int.natAbs_natCast] at hunits
  obtain ⟨significand, hsignificand, more, hmore, rfl⟩ := exists_two_pow_dvd hx hcount hlarge
  obtain ⟨more, rfl⟩ := Nat.exists_eq_add_of_lt hmore
  rw [Nat.zero_add, Nat.pow_succ, ← Nat.mul_assoc] at hcount hless
  have hdiv := div_exact hx htwo hcount hdivisor (Nat.mul_pos (by decide) perOne_pos) (Nat.mul_assoc _ _ _)
    (rounded_mul_two_pow hsignificand more) (by omega)
  rwa [show value (Float.ofNat 2) = 2 from value_ofNat (by decide)] at hdiv

theorem div_half (hx : x.isFinite = true) (hpositive : 0 < value x) (h : value x < 1 / 2) :
    (x / 0.5).isFinite = true ∧ value (x / 0.5) * (1 / 2) = value x := by
  obtain ⟨hhalf, hdivisor⟩ := half_exact
  obtain ⟨count, hcount⟩ := natCast_units hpositive.le
  obtain ⟨half, hhalfUnits⟩ := @Int.eq_ofNat_of_zero_le (units 0.5) (by omega)
  rw [hhalfUnits] at hdivisor
  have hone : half * 2 = perOne := by exact_mod_cast hdivisor
  obtain ⟨significand, exponent, hcanonical, hsize⟩ := exists_sizeOf hx hcount
  have hdouble : rounded (count * 2) = count * 2 := by
    rw [← hsize, sizeOf, Nat.mul_assoc, ← Nat.pow_succ]
    exact rounded_mul_two_pow hcanonical.lt _
  have hless : count * 2 < overflow := by
    rw [value, div_lt_iff₀ perOne_pos_rat, hcount] at h
    have hlt : (count * 2 : Rat) < perOne := by
      rw [Int.cast_natCast] at h
      linarith
    have hone : perOne ≤ overflow := by
      rw [overflow_eq]
      exact Nat.le_mul_of_pos_left _ (by positivity)
    exact (show count * 2 < perOne by exact_mod_cast hlt).trans_le hone
  have hdiv := div_exact hx hhalf hcount hhalfUnits (by have := perOne_pos; omega)
    (by rw [Nat.mul_assoc, Nat.mul_comm 2, hone]) hdouble hless
  rwa [value_half] at hdiv

/-- Between one half and two a double has the bits of its distance from one. -/
theorem sub_one (hx : x.isFinite = true) (hlow : 1 / 2 ≤ value x) (hhigh : value x ≤ 2) :
    (x - 1).isFinite = true ∧ value (x - 1) = value x - 1 := by
  obtain ⟨count, hcount⟩ := natCast_units (hlow.trans' (by norm_num))
  have hlower : perOne ≤ count * 2 := by
    rw [value, le_div_iff₀ perOne_pos_rat, hcount, Int.cast_natCast] at hlow
    have hle : (perOne : Rat) ≤ count * 2 := by linarith
    exact_mod_cast hle
  have hupper : count ≤ 2 * perOne := by
    rw [value, div_le_iff₀ perOne_pos_rat, hcount] at hhigh
    exact_mod_cast hhigh
  have hlarge : 2 ^ (53 + 1020) ≤ count :=
    Nat.le_of_mul_le_mul_right ((two_pow_mul_two (by decide)).trans_le hlower) Nat.two_pos
  obtain ⟨significand, hsignificand, more, hmore, hbits⟩ := exists_two_pow_dvd hx hcount hlarge
  have hdifference : units x - units 1 = (count : Int) - perOne := by rw [hcount, one_exact.2]
  -- both end in as many zeros, so that what is between them does
  have hdvd : 2 ^ 1021 ∣ ((count : Int) - perOne).natAbs := by
    have hcountDvd : 2 ^ 1021 ∣ count := by
      rw [hbits]
      exact (pow_dvd_pow 2 hmore).mul_left significand
    have hperOneDvd : 2 ^ 1021 ∣ perOne := by
      rw [perOne_eq]
      exact pow_dvd_pow 2 (by decide)
    exact Int.natCast_dvd.mp (dvd_sub (Int.natCast_dvd_natCast.mpr hcountDvd) (Int.natCast_dvd_natCast.mpr hperOneDvd))
  have hle : ((count : Int) - perOne).natAbs ≤ perOne := by omega
  have hdouble := rounded_of_two_pow_dvd hdvd (hle.trans_eq (two_pow_eq_perOne (by decide)).symm)
  have hless : ((count : Int) - perOne).natAbs < overflow := by
    rw [overflow_eq]
    exact hle.trans_lt (lt_mul_of_one_lt_left perOne_pos (one_lt_pow₀ (by decide) (by decide)))
  have hfinite : (x - 1).isFinite = true := isFinite_sub hx one_exact.1 (by rwa [hdifference, hdouble])
  refine ⟨hfinite, ?_⟩
  have hunits : units (x - 1) = (count : Int) - perOne :=
    (units_sub hx one_exact.1 hfinite).trans (by rw [hdifference, nearestUnits_of_rounded hdouble])
  rw [value, value, hunits, hcount, Int.cast_sub, sub_div, Int.cast_natCast, Int.cast_natCast,
    div_self perOne_pos_rat.ne']

theorem units_neg (h : x.isFinite = true) : (-x).isFinite = true ∧ units (-x) = -units x := by
  have hregular := (isRegular_of_isFinite h).neg
  have hfinite : (-x).isFinite = true := isFinite_pack hregular.isRounded (natAbs_unitsOf_lt hregular)
  exact ⟨hfinite, (units_pack hregular.isRounded hfinite).trans (unitsOf_neg _)⟩

theorem isFinite_neg (h : x.isFinite = true) : (-x).isFinite = true ∧ value (-x) = -value x := by
  obtain ⟨hfinite, hunits⟩ := units_neg h
  exact ⟨hfinite, by rw [value, value, hunits, Int.cast_neg, neg_div]⟩

theorem value_magnitude (hx : x.isFinite = true) :
    (Scalar.magnitude x).isFinite = true ∧ value (Scalar.magnitude x) = |value x| := by
  have hsign : x < 0 ↔ value x < 0 := by rw [lt_iff_value hx zero_exact.1, zero_exact.2]
  by_cases hnegative : x < 0
  · rw [Scalar.magnitude, if_pos hnegative, abs_of_neg (hsign.mp hnegative)]
    exact isFinite_neg hx
  · rw [Scalar.magnitude, if_neg hnegative, abs_of_nonneg (le_of_not_gt (hsign.not.mp hnegative))]
    exact ⟨hx, rfl⟩

end Segue.Double
