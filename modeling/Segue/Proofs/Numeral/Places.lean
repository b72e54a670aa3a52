import Segue.Proofs.Cue.Reading
import Segue.Proofs.Double.Errors
import Segue.Proofs.Json.Doubles
import Segue.Proofs.Numeral.Grammar

/-!
Numbers with a fixed count of decimal places, read back exactly. Main statements: what is read back
from the text of a finite double is the multiple of the last place that is nearest to it, so at most
half of that place away from it; and of two doubles the one is read back as less than the other when
it lies by more than one place below it.
-/

namespace Segue.Numeral

open Segue.Double
open Json (AreDigits areDigits_toDigits)

instance (digits : List Char) : Decidable (AreDigits digits) :=
  decidable_of_iff (digits ≠ [] ∧ digits.all Char.isDigit = true) (and_congr_right fun _ => List.all_eq_true)

theorem digitsValue_append (digits more : List Char) :
    digitsValue (digits ++ more) = digitsValue digits * 10 ^ more.length + digitsValue more := by
  have hstart : ∀ start, more.foldl (fun value digit => 10 * value + (digit.toNat - '0'.toNat)) start =
      start * 10 ^ more.length + digitsValue more := by
    rw [digitsValue]
    induction more with
    | nil =>
        intro start
        simp
    | cons digit more ih =>
        intro start
        rw [List.foldl_cons, List.foldl_cons, ih, ih (10 * 0 + _), List.length_cons, Nat.pow_succ]
        ring
  rw [digitsValue, List.foldl_append, hstart]
  rfl

theorem not_mem_of_areDigits (mark : Char) (hmark : mark.isDigit = false) {digits : List Char} (h : AreDigits digits) :
    mark ∉ digits := by
  intro hmem
  rw [h.2 mark hmem] at hmark
  cases hmark

theorem toList_padZeros (width n : Nat) :
    (padZeros width (toString n)).toList =
      List.replicate (width - (Nat.toDigits 10 n).length) '0' ++ Nat.toDigits 10 n := by
  rw [padZeros, String.toList_append, String.toList_ofList, ← String.length_toList, toList_toString]

theorem areDigits_padZeros (width n : Nat) : AreDigits (padZeros width (toString n)).toList := by
  rw [toList_padZeros, ← String.toList_ofList (l := List.replicate _ '0')]
  exact (areDigits_toDigits n).behind_zeros _

theorem digitsValue_padZeros (width n : Nat) : digitsValue (padZeros width (toString n)).toList = n := by
  rw [toList_padZeros, digitsValue_replicate_zero, Pad.digitsValue_toDigits]

theorem length_padZeros {width n : Nat} (hwidth : 0 < width) (h : n < 10 ^ width) :
    (padZeros width (toString n)).toList.length = width := by
  have hlength : (Nat.toDigits 10 n).length ≤ width := (Nat.length_toDigits_le_iff (by decide) hwidth).mpr h
  rw [toList_padZeros, List.length_append, List.length_replicate, Nat.sub_add_cancel hlength]

/-- The digits before the point and those behind it. -/
theorem toList_unitsText {places : Nat} (h : places ≠ 0) (n : Nat) :
    (unitsText places n).toList =
      Nat.toDigits 10 (n / 10 ^ places) ++ '.' :: (padZeros places (toString (n % 10 ^ places))).toList := by
  have hpow : Nat.pow 10 places = 10 ^ places := rfl
  simp only [unitsText, if_neg h, String.toList_append, toList_toString, hpow, List.append_assoc]
  rfl

/-- Digits with a point among them, behind a sign or none, as the number that they stand for. -/
def decimal? (text : List Char) : Option Rat :=
  let (negative, body) := splitSign text
  match cutFirst '.' body with
  | (whole, some places) =>
    if AreDigits whole ∧ AreDigits places then
      let size : Rat := digitsValue (whole ++ places) / 10 ^ places.length
      some (if negative then -size else size)
    else none
  | (_, none) => none

theorem decimal?_places {sign whole places : List Char} {negative : Bool} (hsign : IsSign sign negative)
    (hwhole : AreDigits whole) (hplaces : AreDigits places) :
    decimal? (sign ++ (whole ++ '.' :: places)) =
      some (if negative then -(digitsValue (whole ++ places) / 10 ^ places.length : Rat)
        else digitsValue (whole ++ places) / 10 ^ places.length) := by
  have hunsigned : Unsigned (whole ++ '.' :: places) := by
    obtain ⟨c, rest, rfl⟩ := List.exists_cons_of_ne_nil hwhole.1
    exact unsigned_cons (.inl (hwhole.2 c List.mem_cons_self)) _
  have hcut := cutFirst_append (not_mem_of_areDigits '.' rfl hwhole) places
  simp only [decimal?, hsign.splitSign_append hunsigned, hcut, if_pos (And.intro hwhole hplaces)]

variable {x y : Float}

/-- The sign, the significand and the exponent of a finite double. -/
theorem ofFloat_of_isFinite (h : x.isFinite = true) : ∃ negative significand exponent,
    Parts.ofFloat x = .finite negative significand exponent ∧ -1074 ≤ exponent ∧
      units x = if negative then -(sizeOf significand exponent : Int) else sizeOf significand exponent := by
  have hbits : x.toBits.toNat < 2 ^ 64 := x.toBits.toBitVec.isLt
  have hfinite : x.toBits.toNat / 2 ^ 52 % 2 ^ 11 ≠ 2047 := by
    intro hfield
    obtain ⟨_, _, _, hparts, -⟩ := finite_of_isFinite h
    have hnone : Parts.ofFloat x = if x.toBits.toNat % 2 ^ 52 = 0 then
        .infinite (decide (2 ^ 63 ≤ x.toBits.toNat)) else .undefined := if_pos hfield
    rw [hnone] at hparts
    split at hparts <;> cases hparts
  have hunits : units x = if decide (2 ^ 63 ≤ x.toBits.toNat) = true then
      -(bitSize (x.toBits.toNat % 2 ^ 63) : Int) else bitSize (x.toBits.toNat % 2 ^ 63) := by
    rw [units_eq_bitUnits h, bitUnits]
    by_cases hsign : x.toBits.toNat < 2 ^ 63
    · rw [if_pos hsign, decide_eq_false (Nat.not_le.mpr hsign), if_neg Bool.false_ne_true, Nat.mod_eq_of_lt hsign]
    · have hmod : x.toBits.toNat % 2 ^ 63 = x.toBits.toNat - 2 ^ 63 := by omega
      rw [if_neg hsign, decide_eq_true (Nat.not_lt.mp hsign), if_pos rfl, hmod]
  have hfield : x.toBits.toNat % 2 ^ 63 / 2 ^ 52 = x.toBits.toNat / 2 ^ 52 % 2 ^ 11 := by omega
  have hfraction : x.toBits.toNat % 2 ^ 63 % 2 ^ 52 = x.toBits.toNat % 2 ^ 52 := by omega
  have hparts : Parts.ofFloat x = if x.toBits.toNat / 2 ^ 52 % 2 ^ 11 = 0 then
      .finite (decide (2 ^ 63 ≤ x.toBits.toNat)) (x.toBits.toNat % 2 ^ 52) (-1074)
    else .finite (decide (2 ^ 63 ≤ x.toBits.toNat)) (2 ^ 52 + x.toBits.toNat % 2 ^ 52)
      ((x.toBits.toNat / 2 ^ 52 % 2 ^ 11 : Nat) - 1075) := if_neg hfinite
  rw [hparts, hunits, bitSize, hfield, hfraction]
  generalize x.toBits.toNat / 2 ^ 52 % 2 ^ 11 = field
  by_cases hzero : field = 0
  · rw [if_pos hzero, if_pos hzero]
    refine ⟨_, _, _, rfl, Int.le_refl _, ?_⟩
    rw [Double.sizeOf, Int.add_left_neg, Int.toNat_zero, Nat.pow_zero, Nat.mul_one]
  · have hexponent : ((field : Int) - 1075 + 1074).toNat = field - 1 := by omega
    rw [if_neg hzero, if_neg hzero]
    exact ⟨_, _, _, rfl, by omega, by rw [Double.sizeOf, hexponent]⟩

/-- So many units as a count of the last of `places` decimal places, a tie going to the even one. -/
def placesOf (places size : Nat) : Nat := roundHalfEven (size * 10 ^ places) perOne

/-- The text of a finite number without its sign is that of the count of its last places. -/
theorem body_finite {style : FixedStyle} {negative : Bool} {significand : Nat} {exponent : Int}
    (hleast : -1074 ≤ exponent) :
    style.body (.finite negative significand exponent) =
      unitsText style.places (placesOf style.places (sizeOf significand exponent)) := by
  have hpow : ∀ base count : Nat, Nat.pow base count = base ^ count := fun _ _ => rfl
  simp only [FixedStyle.body, sizeFraction, hpow]
  rw [placesOf]
  split
  · rename_i hwhole
    rw [sizeOf_of_nonneg significand hwhole, Nat.mul_right_comm _ perOne, ← roundHalfEven_mul_right _ 1 perOne_pos,
      Nat.one_mul]
  · rename_i hpart
    have hsize := sizeOf_of_neg significand hleast (Int.not_le.mp hpart)
    rw [← roundHalfEven_mul_right (significand * 10 ^ style.places) _ perOne_pos, Nat.mul_right_comm, ← hsize,
      Nat.mul_right_comm, Nat.mul_comm (2 ^ (-exponent).toNat) perOne,
      roundHalfEven_mul_right _ _ (Nat.two_pow_pos _)]

/-- The multiple of the last of `places` decimal places that is nearest to a double. -/
def nearestPlaces (places : Nat) (x : Float) : Rat :=
  (units x).sign * placesOf places (units x).natAbs / 10 ^ places

theorem placesOf_zero (places : Nat) : placesOf places 0 = 0 := by
  have hnone := roundHalfEven_mul_self 0 perOne_pos
  rw [Nat.zero_mul] at hnone
  rw [placesOf, Nat.zero_mul, hnone]

section

variable {places size : Nat}

theorem nearestPlaces_of_nonneg (h : units x = size) : nearestPlaces places x = placesOf places size / 10 ^ places := by
  rw [nearestPlaces, h, Int.natAbs_natCast]
  rcases Nat.eq_zero_or_pos size with rfl | hpositive
  · simp [placesOf_zero]
  · rw [Int.sign_natCast_of_ne_zero hpositive.ne', Int.cast_one, one_mul]

theorem nearestPlaces_of_nonpos (h : units x = -size) :
    nearestPlaces places x = -(placesOf places size / 10 ^ places) := by
  rw [nearestPlaces, h, Int.natAbs_neg, Int.natAbs_natCast]
  rcases Nat.eq_zero_or_pos size with rfl | hpositive
  · simp [placesOf_zero]
  · rw [Int.sign_neg, Int.sign_natCast_of_ne_zero hpositive.ne', Int.cast_neg, Int.cast_one, neg_one_mul, neg_div]

end

theorem isSign_sign (style : FixedStyle) (negative : Bool) (significand : Nat) (exponent : Int) :
    IsSign (style.sign (.finite negative significand exponent)).toList negative := by
  obtain ⟨places, showsPlus, width⟩ := style
  cases negative with
  | true => simpa [FixedStyle.sign] using IsSign.minus
  | false =>
      cases showsPlus with
      | true => simpa [FixedStyle.sign] using IsSign.plus
      | false => simpa [FixedStyle.sign] using IsSign.none

/-- What is read back from the text of a double is the nearest multiple of its last place. -/
theorem decimal?_write {style : FixedStyle} (hplaces : style.places ≠ 0) (hx : x.isFinite = true) :
    decimal? (style.write x).toList = some (nearestPlaces style.places x) := by
  obtain ⟨negative, significand, exponent, hparts, hleast, hunits⟩ := ofFloat_of_isFinite hx
  obtain ⟨count, hcount⟩ : ∃ count, count = placesOf style.places (Double.sizeOf significand exponent) := ⟨_, rfl⟩
  have hsign := isSign_sign style negative significand exponent
  simp only [FixedStyle.write, hparts, body_finite hleast, ← hcount]
  rw [String.toList_append, padZeros, String.toList_append, String.toList_ofList, toList_unitsText hplaces]
  generalize style.width - _ - _ = width
  have hwhole := (areDigits_toDigits (count / 10 ^ style.places)).behind_zeros width
  have hbehind : count % 10 ^ style.places < 10 ^ style.places := Nat.mod_lt _ (Nat.pow_pos (by decide))
  have hlength := length_padZeros (Nat.pos_of_ne_zero hplaces) hbehind
  rw [zeros, String.toList_ofList] at hwhole
  rw [← List.append_assoc (List.replicate _ _), decimal?_places hsign hwhole (areDigits_padZeros _ _),
    digitsValue_append, digitsValue_replicate_zero, Pad.digitsValue_toDigits, hlength, digitsValue_padZeros,
    Nat.div_add_mod', hcount]
  cases negative with
  | true => rw [if_pos rfl, nearestPlaces_of_nonpos hunits]
  | false => rw [if_neg Bool.false_ne_true, nearestPlaces_of_nonneg hunits]

theorem isFinite_of_ofFloat {negative : Bool} {significand : Nat} {exponent : Int}
    (h : Parts.ofFloat x = .finite negative significand exponent) : x.isFinite = true := by
  have hfield := toNat_unpackExponent x.toBits.toBitVec
  have hfraction := toNat_unpackMantissa x.toBits.toBitVec
  have hfinite : x.toBits.toBitVec.toNat / 2 ^ 52 % 2 ^ 11 ≠ 2047 := by
    intro hall
    have hnone : Parts.ofFloat x = if x.toBits.toNat % 2 ^ 52 = 0 then
        .infinite (decide (2 ^ 63 ≤ x.toBits.toNat)) else .undefined := if_pos hall
    rw [hnone] at h
    split at h <;> cases h
  change (Float.Model.UnpackedFloat.unpack Float.Model.Format.binary64 x.toBits.toBitVec).isFinite = true
  by_cases hzero : x.toBits.toBitVec.toNat / 2 ^ 52 % 2 ^ 11 = 0
  · rw [unpack_subnormal (hfield.trans hzero) hfraction]
    split <;> rfl
  · rw [unpack_normal hfield hzero hfinite hfraction]
    rfl

theorem decimal?_of_not_mem {text : List Char} (h : '.' ∉ text) : decimal? text = none := by
  obtain ⟨sign, negative, body, hsplit, -, rfl⟩ := exists_sign text
  have hcut := cutFirst_of_not_mem fun hmem => h (List.mem_append_right sign hmem)
  simp only [decimal?, hsplit, hcut]

/-- No number is read back from the text of a double that is not finite. -/
theorem decimal?_write_of_not_isFinite (style : FixedStyle) (hx : x.isFinite = false) :
    decimal? (style.write x).toList = none := by
  have hzeros : ∀ (count : Nat) (text : String), '.' ∉ text.toList → '.' ∉ (padZeros count text).toList := by
    intro count text htext hmem
    rw [padZeros, String.toList_append, String.toList_ofList, List.mem_append] at hmem
    rcases hmem with hmem | hmem
    · exact absurd (List.eq_of_mem_replicate hmem) (by decide)
    · exact htext hmem
  have hsign : ∀ parts, '.' ∉ (style.sign parts).toList := by
    intro parts
    rw [FixedStyle.sign.eq_def]
    split
    · decide
    · split_ifs <;> decide
    · split_ifs <;> decide
  have hbody : '.' ∉ (style.body (Parts.ofFloat x)).toList := by
    cases hparts : Parts.ofFloat x with
    | undefined => exact (by decide : '.' ∉ "NaN".toList)
    | infinite => exact (by decide : '.' ∉ "inf".toList)
    | finite =>
        rw [isFinite_of_ofFloat hparts] at hx
        cases hx
  refine decimal?_of_not_mem ?_
  rw [FixedStyle.write, String.toList_append]
  exact List.not_mem_append (hsign _) (hzeros _ _ hbody)

variable {places : Nat}

/-- A count of last places is at most one half away from the size that it is taken of. -/
theorem placesOf_near (places size : Nat) :
    |(placesOf places size / 10 ^ places : Rat) - size / perOne| ≤ 1 / 2 / 10 ^ places := by
  obtain ⟨hupper, hlower⟩ := roundHalfEven_near (size * 10 ^ places) perOne_pos
  rw [← placesOf] at hupper hlower
  have hupper : (2 * (placesOf places size * perOne) : Rat) ≤ 2 * (size * 10 ^ places) + perOne := by
    exact_mod_cast hupper
  have hlower : (2 * (size * 10 ^ places) : Rat) ≤ 2 * (placesOf places size * perOne) + perOne := by
    exact_mod_cast hlower
  have hunit := perOne_pos_rat
  have hscale : (0 : Rat) < 10 ^ places * perOne := by positivity
  have hdifference : (placesOf places size / 10 ^ places : Rat) - size / perOne =
      (placesOf places size * perOne - size * 10 ^ places) / (10 ^ places * perOne) := by
    field_simp
  have hhalf : (1 / 2 / 10 ^ places : Rat) * (10 ^ places * perOne) = perOne / 2 := by
    field_simp
  rw [hdifference, abs_div, abs_of_pos hscale, div_le_iff₀ hscale, hhalf, abs_le]
  constructor <;> linarith

theorem nearestPlaces_near (places : Nat) (x : Float) :
    |nearestPlaces places x - value x| ≤ 1 / 2 / 10 ^ places := by
  obtain ⟨size, hsize | hsize⟩ := (units x).eq_nat_or_neg
  · rw [nearestPlaces_of_nonneg hsize, value, hsize, Int.cast_natCast]
    exact placesOf_near places size
  · rw [nearestPlaces_of_nonpos hsize, value, hsize, Int.cast_neg, Int.cast_natCast, neg_div, ← neg_sub', abs_neg]
    exact placesOf_near places size

/-- Nothing but what is no more than half of the last place is read back as zero. -/
theorem nearestPlaces_pos_iff : 0 < nearestPlaces places x ↔ 1 / 2 / 10 ^ places < value x := by
  have hplace : (0 : Rat) < 10 ^ places := by positivity
  obtain ⟨size, hsize | hsize⟩ := (units x).eq_nat_or_neg
  · have hpositive : 0 < placesOf places size ↔ perOne < 2 * (size * 10 ^ places) := roundHalfEven_pos_iff perOne_pos
    have hcast : perOne < 2 * (size * 10 ^ places) ↔ (perOne : Rat) < 2 * (size * 10 ^ places) := by norm_cast
    rw [nearestPlaces_of_nonneg hsize, div_pos_iff_of_pos_right hplace, Nat.cast_pos, hpositive, hcast, value, hsize,
      Int.cast_natCast, div_lt_iff₀ hplace, div_mul_eq_mul_div, lt_div_iff₀ perOne_pos_rat]
    constructor <;> intro h <;> linarith
  · have hsome : (0 : Rat) ≤ placesOf places size / 10 ^ places := by positivity
    have hvalue : (0 : Rat) ≤ size / perOne := by positivity
    have hhalf : (0 : Rat) < 1 / 2 / 10 ^ places := by positivity
    rw [nearestPlaces_of_nonpos hsize, value, hsize, Int.cast_neg, Int.cast_natCast, neg_div]
    constructor <;> intro h <;> linarith

/-- Doubles more than one place apart are read back in their order. -/
theorem nearestPlaces_lt (h : value x + 1 / 10 ^ places < value y) :
    nearestPlaces places x < nearestPlaces places y := by
  have hx := abs_le.mp (nearestPlaces_near places x)
  have hy := abs_le.mp (nearestPlaces_near places y)
  have hplace : (1 / 10 ^ places : Rat) = 1 / 2 / 10 ^ places + 1 / 2 / 10 ^ places := by ring
  linarith [hx.2, hy.1]

end Segue.Numeral
