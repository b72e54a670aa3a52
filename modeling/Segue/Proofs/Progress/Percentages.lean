import Segue.Mixing.Encoding
import Segue.Progress
import Segue.Proofs.Double.Exact

/-!
The percentages of a job. Main statements: measuring fills the first fifth and never goes back;
rendering stays within the rest, however long the output is thought to be; and no time that is left
is negative.
-/

namespace Segue

open Segue.Double
open Float.Model (UnpackedFloat)

namespace Double

variable {x y z : Float} {low high least most count : Nat}

/-- A double from one count to another. -/
structure IsBetween (low high : Nat) (x : Float) : Prop where
  isFinite : x.isFinite = true
  low_le : (low * perOne : Nat) ≤ units x
  le_high : units x ≤ (high * perOne : Nat)

theorem isBetween_ofNat (h : count < 2 ^ 53) : IsBetween count count (Float.ofNat count) := by
  obtain ⟨hfinite, hunits⟩ := ofNat_exact h
  exact ⟨hfinite, hunits.ge, hunits.le⟩

theorem isBetween_null : IsBetween 0 0 0.0 := isBetween_ofNat (by decide)

theorem isBetween_whole : IsBetween 100 100 100.0 := isBetween_ofNat (by decide)

theorem IsBetween.le (h : IsBetween low high x) (hhigh : high < 2 ^ 53) (hle : low ≤ high) :
    Float.ofNat low ≤ x ∧ x ≤ Float.ofNat high := by
  obtain ⟨hlow, hlowUnits⟩ := ofNat_exact (hle.trans_lt hhigh)
  obtain ⟨hhigh, hhighUnits⟩ := ofNat_exact hhigh
  rw [le_iff_units hlow h.isFinite, le_iff_units h.isFinite hhigh, hlowUnits, hhighUnits]
  exact ⟨h.low_le, h.le_high⟩

theorem IsBetween.mono (h : IsBetween low high x) (hlow : least ≤ low) (hhigh : high ≤ most) :
    IsBetween least most x where
  isFinite := h.isFinite
  low_le := (Int.ofNat_le.mpr (Nat.mul_le_mul_right perOne hlow)).trans h.low_le
  le_high := h.le_high.trans (Int.ofNat_le.mpr (Nat.mul_le_mul_right perOne hhigh))

theorem nearestUnits_between {exact : Int} (hhigh : high < 2 ^ 53) (hlow_le : (low * perOne : Nat) ≤ exact)
    (hle_high : exact ≤ (high * perOne : Nat)) :
    (low * perOne : Nat) ≤ nearestUnits exact ∧ nearestUnits exact ≤ (high * perOne : Nat) := by
  have hle : low ≤ high := Nat.le_of_mul_le_mul_right (Int.ofNat_le.mp (hlow_le.trans hle_high)) perOne_pos
  have hlower := nearestUnits_mono hlow_le
  have hupper := nearestUnits_mono hle_high
  rw [nearestUnits_natCast, rounded_count (hle.trans_lt hhigh)] at hlower
  rw [nearestUnits_natCast, rounded_count hhigh] at hupper
  exact ⟨hlower, hupper⟩

theorem lt_overflow (h : count < 2 ^ 53) : count * perOne < overflow := by
  rw [overflow_eq]
  refine Nat.mul_lt_mul_of_pos_right (h.trans ?_) perOne_pos
  gcongr <;> decide

theorem rounded_lt_overflow {exact : Int} (hhigh : high < 2 ^ 53) (hlow_le : 0 ≤ exact)
    (hle_high : exact ≤ (high * perOne : Nat)) : rounded exact.natAbs < overflow := by
  have hle : rounded exact.natAbs ≤ high * perOne := by
    rw [← rounded_count hhigh]
    exact rounded_mono (by omega)
  exact hle.trans_lt (lt_overflow hhigh)

theorem IsBetween.add (hx : IsBetween low high x) (hy : IsBetween least most y) (h : high + most < 2 ^ 53) :
    IsBetween (low + least) (high + most) (x + y) := by
  have hlower := add_le_add hx.low_le hy.low_le
  have hupper := add_le_add hx.le_high hy.le_high
  rw [← Int.natCast_add, ← Nat.add_mul] at hlower hupper
  have hfinite : (x + y).isFinite = true :=
    isFinite_add hx.isFinite hy.isFinite (rounded_lt_overflow h ((Int.natCast_nonneg _).trans hlower) hupper)
  obtain ⟨hlow_le, hle_high⟩ := nearestUnits_between h hlower hupper
  rw [← units_add hx.isFinite hy.isFinite hfinite] at hlow_le hle_high
  exact ⟨hfinite, hlow_le, hle_high⟩

/-- A whole multiple, which is the exact one, rounded. -/
theorem IsBetween.mul (hx : IsBetween low high x) (hy : IsBetween count count y) (h : high * count < 2 ^ 53) :
    IsBetween (low * count) (high * count) (x * y) ∧ units (x * y) = nearestUnits (units x * count) := by
  have hcount : units y = (count * perOne : Nat) := le_antisymm hy.le_high hy.low_le
  have hlower := mul_le_mul_of_nonneg_right hx.low_le (Int.natCast_nonneg count)
  have hupper := mul_le_mul_of_nonneg_right hx.le_high (Int.natCast_nonneg count)
  rw [← Int.natCast_mul, Nat.mul_right_comm] at hlower hupper
  obtain ⟨hfinite, hunits⟩ := isFinite_mul hx.isFinite hy.isFinite hcount
    (rounded_lt_overflow h ((Int.natCast_nonneg _).trans hlower) hupper)
  obtain ⟨hlow_le, hle_high⟩ := nearestUnits_between h hlower hupper
  rw [← hunits] at hlow_le hle_high
  exact ⟨⟨hfinite, hlow_le, hle_high⟩, hunits⟩

theorem le_of_lt (h : x < y) : x ≤ y := by
  have hcompare : (x.toModel.unpack.compare y.toModel.unpack == some .lt) = true := of_decide_eq_true h
  refine decide_eq_true (?_ : (x.toModel.unpack.compare y.toModel.unpack).any (·.isLE) = true)
  rw [beq_iff_eq.mp hcompare]
  rfl

theorem pos_of_nonneg (h : 0 ≤ x) (hne : ¬x ≤ 0) : 0 < x := by
  have hle : UnpackedFloat.le (.zero .positive) x.toModel.unpack = true := of_decide_eq_true h
  have hgt : ¬UnpackedFloat.le x.toModel.unpack (.zero .positive) = true := fun hle => hne (decide_eq_true hle)
  refine decide_eq_true (?_ : UnpackedFloat.lt (.zero .positive) x.toModel.unpack = true)
  generalize x.toModel.unpack = value at hle hgt
  rcases value with sign | _ | _ | ⟨sign, significand, exponent, hpositive⟩
  · cases sign
    · cases hle
    · rfl
  · cases hle
  · exact (hgt rfl).elim
  · cases sign
    · cases hle
    · rfl

theorem atLeast_nonneg (x : Float) : 0 ≤ Scalar.atLeast 0 x := by
  rw [Scalar.atLeast]
  split
  · rename_i h
    exact le_of_lt h
  · exact decide_eq_true rfl

/-- What is not undefined is brought between zero and one. -/
theorem isBetween_clamp (h : z.isNaN = false) : IsBetween 0 1 (Scalar.clamp (Float.ofNat 0) (Float.ofNat 1) z) := by
  obtain ⟨hnull, hnullUnits⟩ := @ofNat_exact 0 (by decide)
  obtain ⟨hone, honeUnits⟩ := @ofNat_exact 1 (by decide)
  rw [Scalar.clamp]
  split
  · exact (@isBetween_ofNat 0 (by decide)).mono (Nat.le_refl 0) (Nat.zero_le 1)
  · rename_i hnonneg
    split
    · exact (@isBetween_ofNat 1 (by decide)).mono (Nat.zero_le 1) (Nat.le_refl 1)
    · rename_i hatMost
      rcases finite_or_beyond h with hfinite | hbefore | hbehind
      · rw [lt_iff_units hfinite hnull] at hnonneg
        rw [lt_iff_units hone hfinite] at hatMost
        exact ⟨hfinite, by omega, by omega⟩
      · exact (hnonneg (hbefore _ hnull)).elim
      · exact (hatMost (hbehind _ hone)).elim

end Double

namespace Progress

theorem isBetween_measuringShare : IsBetween 20 20 (measuringShare : Float) := isBetween_ofNat (by decide)

theorem rounded_total_pos {total : Nat} (hne : total ≠ 0) : 0 < rounded (total * perOne) := by
  have hone := rounded_mono (Nat.mul_le_mul_right perOne (Nat.one_le_iff_ne_zero.mpr hne))
  rw [rounded_count (by decide), Nat.one_mul] at hone
  exact perOne_pos.trans_le hone

/-- The part of a total that is done. -/
theorem isBetween_part {done total : Nat} (hdone : done ≤ total) (htotal : total < 2 ^ 64) (hne : total ≠ 0) :
    IsBetween 0 1 (Float.ofNat done / Float.ofNat total) ∧
      units (Float.ofNat done / Float.ofNat total) =
        (roundedRatio (rounded (done * perOne) * perOne) (rounded (total * perOne)) : Nat) := by
  obtain ⟨hfinite, hunits⟩ := ofNat_rounded (hdone.trans_lt htotal)
  obtain ⟨hfinite', hunits'⟩ := ofNat_rounded htotal
  have hpositive := rounded_total_pos hne
  have hle : roundedRatio (rounded (done * perOne) * perOne) (rounded (total * perOne)) ≤ perOne := by
    have hparts := rounded_mono (Nat.mul_le_mul_right perOne hdone)
    rw [Nat.mul_comm (rounded _) perOne]
    exact roundedRatio_le_perOne hpositive (Nat.mul_le_mul_left _ hparts)
  have hsmall : perOne < overflow := (Nat.one_mul perOne).symm.trans_lt (lt_overflow (by decide))
  obtain ⟨hquotient, hquotientUnits⟩ :=
    isFinite_div hfinite hfinite' hunits hunits' hpositive (hle.trans_lt hsmall)
  refine ⟨⟨hquotient, ?_, ?_⟩, hquotientUnits⟩
  · rw [hquotientUnits, Nat.zero_mul]
    exact Int.natCast_nonneg _
  · rw [hquotientUnits, Nat.one_mul]
    exact Int.ofNat_le.mpr hle

theorem units_afterMeasuring {done total : Nat} (htotal : total < 2 ^ 64) (hne : total ≠ 0) :
    IsBetween 0 20 (afterMeasuring done total : Float) ∧
      units (afterMeasuring done total : Float) = nearestUnits ((roundedRatio (rounded (min done total * perOne) *
        perOne) (rounded (total * perOne)) : Nat) * (20 : Nat)) := by
  obtain ⟨hpart, hunits⟩ := isBetween_part (Nat.min_le_right done total) htotal hne
  have heq : (afterMeasuring done total : Float) =
      Float.ofNat (min done total) / Float.ofNat total * measuringShare := by
    rw [afterMeasuring, if_neg hne]
    exact mul_swap _ _
  rw [heq, ← hunits]
  exact hpart.mul isBetween_measuringShare (by decide)

/-- Measuring fills the first fifth of the percentage. -/
theorem isBetween_afterMeasuring {total : Nat} (htotal : total < 2 ^ 64) (done : Nat) :
    IsBetween 0 20 (afterMeasuring done total : Float) := by
  by_cases hne : total = 0
  · rw [afterMeasuring, if_pos hne]
    exact isBetween_measuringShare.mono (Nat.zero_le 20) (Nat.le_refl 20)
  · exact (units_afterMeasuring htotal hne).1

/-- A further track that has been measured does not set the percentage back. -/
theorem afterMeasuring_mono {done more total : Nat} (htotal : total < 2 ^ 64) (h : done ≤ more) :
    units (afterMeasuring done total : Float) ≤ units (afterMeasuring more total : Float) := by
  by_cases hne : total = 0
  · rw [afterMeasuring, afterMeasuring, if_pos hne, if_pos hne]
  · have hpositive : 0 < rounded (total * perOne) := rounded_total_pos hne
    have hparts : min done total * perOne ≤ min more total * perOne :=
      Nat.mul_le_mul_right _ (min_le_min_right total h)
    have hratio := roundedRatio_mono hpositive (Nat.mul_le_mul_right perOne (rounded_mono hparts))
    rw [(units_afterMeasuring htotal hne).2, (units_afterMeasuring htotal hne).2]
    exact nearestUnits_mono (Int.mul_le_mul_of_nonneg_right (Int.ofNat_le.mpr hratio) (Int.natCast_nonneg 20))

/-- The percentage that belongs to rendering. -/
theorem isBetween_rest : IsBetween 80 80 (Float.ofNat 100 - measuringShare) := by
  have heq : Float.ofNat 100 - measuringShare = Float.ofNat 80 := by decide +kernel
  rw [heq]
  exact isBetween_ofNat (by decide)

/-- The part of an output that has been encoded. -/
theorem isBetween_encoded {encoded total : Float} (hencoded : encoded.isFinite = true) (htotal : 0 ≤ total) :
    IsBetween 0 1 (if total ≤ 0 then 0 else Scalar.clamp 0 1 (encoded / total)) := by
  split
  · exact (@isBetween_ofNat 0 (by decide)).mono (Nat.le_refl 0) (Nat.zero_le 1)
  · rename_i hne
    exact isBetween_clamp (isNaN_div hencoded (pos_of_nonneg htotal hne))

/-- Rendering stays within its part of the percentage. -/
theorem isBetween_rendering {encoded total : Float} (hencoded : encoded.isFinite = true) (htotal : 0 ≤ total)
    (elapsed : Float) : IsBetween 20 100 (rendering encoded total elapsed).percent :=
  isBetween_measuringShare.add ((isBetween_encoded hencoded htotal).mul isBetween_rest (by decide)).1 (by decide)

theorem remaining_nonneg {encoded total elapsed remaining : Float}
    (h : (rendering encoded total elapsed).remaining = some remaining) : 0 ≤ remaining := by
  simp only [rendering, Option.ite_none_right_eq_some, Option.some.injEq] at h
  obtain ⟨-, rfl⟩ := h
  exact atLeast_nonneg _

theorem isFinite_of_clock? {text : List Char} {seconds : Float} (h : clock? text = some seconds) :
    seconds.isFinite = true := by
  simp only [clock?, Option.bind_eq_bind, Option.bind_eq_some_iff] at h
  obtain ⟨fields, -, hours, -, minutes, -, rest, -, htotal⟩ := h
  split at htotal
  · rename_i hproper
    cases htotal
    exact hproper.1
  · cases htotal

theorem isFinite_of_elapsed? {text : List Char} {seconds : Float} (h : elapsed? text = some seconds) :
    seconds.isFinite = true := by
  induction text with
  | nil => cases h
  | cons c rest ih =>
      rw [elapsed?] at h
      split at h
      · rename_i hlater
        exact ih (hlater.trans h)
      · split at h
        · exact isFinite_of_clock? h
        · cases h

end Progress

/-- The estimated length of a mix is not negative, and never undefined. -/
theorem mixDuration_nonneg (tracks : List (Track Float)) (transitions : List (Transition Float)) :
    0 ≤ mixDuration tracks transitions := atLeast_nonneg _

end Segue
