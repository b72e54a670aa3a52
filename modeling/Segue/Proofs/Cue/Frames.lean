import Segue.Cue.Time
import Segue.Proofs.Double.Arithmetic

/-!
Cue times as frames. Main statements: what is shown is less than a frame away from the time, and a
later time is never shown as an earlier frame.
-/

namespace Segue

open Segue.Double

namespace Double

theorem units_of_unpack {x : Float} {significand : Nat} {exponent : Int} {hpositive : 0 < significand}
    (h : x.toModel.unpack = .finite .positive significand exponent hpositive) :
    units x = sizeOf significand exponent := by
  rw [units, h]
  rfl

theorem units_seventyFive : units 75.0 = (75 * perOne : Nat) := by
  have hwhole : (75.0 : Float) = (75 : UInt64).toFloat := by decide +kernel
  have hlt : (75 : UInt64).toNat < 2 ^ 53 := by decide
  rw [hwhole]
  exact (toFloat_whole hlt).2

theorem units_half : 2 * units 0.5 = perOne := by
  have hunpack : (0.5 : Float).toModel.unpack = .finite .positive (2 ^ 52) (-53) (by decide) := rfl
  obtain ⟨exponent, hexponent⟩ : ∃ exponent : Int, exponent = -53 := ⟨_, rfl⟩
  have hshift : (-exponent).toNat = 53 := by omega
  have hsize := sizeOf_of_neg (2 ^ 52) (by omega : -1074 ≤ exponent) (by omega)
  rw [hshift] at hsize
  rw [units_of_unpack hunpack, ← hexponent]
  generalize sizeOf (2 ^ 52) exponent = size at hsize ⊢
  omega

/-- From this double on every double is whole. -/
theorem units_limit : units 9007199254740992.0 = (2 ^ 53 * perOne : Nat) := by
  have hunpack : (9007199254740992.0 : Float).toModel.unpack = .finite .positive (2 ^ 52) 1 (by decide) := rfl
  rw [units_of_unpack hunpack, sizeOf_of_nonneg _ (by decide)]
  rfl

theorem units_null : units 0.0 = 0 := rfl

/-- So many units in whole numbers; a half goes up. -/
def roundHalfUp (count : Nat) : Nat := (2 * count + perOne) / (2 * perOne)

theorem roundHalfUp_mono {count greater : Nat} (h : count ≤ greater) : roundHalfUp count ≤ roundHalfUp greater :=
  Nat.div_le_div_right (by omega)

/-- Between two whole numbers one of them is the nearest. -/
theorem roundHalfUp_bounds {count whole : Nat} (hlower : whole * perOne ≤ count)
    (hupper : count ≤ (whole + 1) * perOne) : whole ≤ roundHalfUp count ∧ roundHalfUp count ≤ whole + 1 := by
  have hpositive := perOne_pos
  rw [Nat.succ_mul] at hupper
  constructor
  · rw [roundHalfUp, Nat.le_div_iff_mul_le (by omega), Nat.mul_left_comm]
    omega
  · have hnext : (whole + 2) * (2 * perOne) = 2 * (whole * perOne) + 4 * perOne := by ring
    have hlt : roundHalfUp count < whole + 2 := by
      rw [roundHalfUp, Nat.div_lt_iff_lt_mul (by omega), hnext]
      omega
    exact Nat.le_of_lt_succ hlt

theorem roundHalfUp_mul_perOne (whole : Nat) : roundHalfUp (whole * perOne) = whole := by
  have hpositive := perOne_pos
  have hsum : 2 * (whole * perOne) + perOne = perOne + whole * (2 * perOne) := by ring
  rw [roundHalfUp, hsum, Nat.add_mul_div_right _ _ (by omega), Nat.div_eq_of_lt (by omega), Nat.zero_add]

/-- The nearest whole number to a double is that to its units. -/
theorem nearestWhole_eq {x : Float} {count : Nat} (hx : x.isFinite = true) (hcount : units x = count)
    (hlt : count < 2 ^ 53 * perOne) : nearestWhole x = roundHalfUp count := by
  have hpositive := perOne_pos
  have hword : count < 2 ^ 64 * perOne := hlt.trans (Nat.mul_lt_mul_of_pos_right (by decide) perOne_pos)
  have hwhole := toNat_toUInt64 hx hcount hword
  obtain ⟨hfinite, hunits⟩ := isFinite_sub_whole hx hcount hlt
  have hhalf : 0.5 ≤ x - x.toUInt64.toFloat ↔ perOne ≤ 2 * (count % perOne) := by
    rw [le_iff_units rfl hfinite, hunits]
    have h := units_half
    omega
  have hdivision := Nat.div_add_mod count perOne
  have hrest := Nat.mod_lt count perOne_pos
  rw [nearestWhole, hwhole, roundHalfUp]
  generalize count / perOne = whole at hdivision
  generalize count % perOne = rest at hdivision hrest hhalf
  by_cases hup : 0.5 ≤ x - x.toUInt64.toFloat
  · have hrest' := hhalf.mp hup
    rw [if_pos hup, ← hdivision]
    symm
    apply Nat.div_eq_of_lt_le
    · nlinarith
    · nlinarith
  · have hrest' := mt hhalf.mpr hup
    rw [if_neg hup, ← hdivision]
    symm
    apply Nat.div_eq_of_lt_le
    · nlinarith
    · nlinarith

end Double

namespace CueTime

/-- A finite time of fewer seconds than `2 ^ 53`. -/
def InRange (seconds : Float) : Prop := seconds.isFinite = true ∧ seconds < 9007199254740992.0

instance (seconds : Float) : Decidable (InRange seconds) :=
  inferInstanceAs (Decidable (seconds.isFinite = true ∧ seconds < 9007199254740992.0))

/-- The time that is shown, in frames. -/
def frameCount (seconds : Float) : Nat := wholeSeconds seconds * framesPerSecond + frames seconds

def framesOf (count : Nat) : Nat :=
  count / perOne * framesPerSecond + min (roundHalfUp (rounded (count % perOne * 75))) (framesPerSecond - 1)

theorem framesOf_mono {count greater : Nat} (h : count ≤ greater) : framesOf count ≤ framesOf greater := by
  rcases Nat.lt_or_eq_of_le (Nat.div_le_div_right h (c := perOne)) with hlt | heq
  · -- all frames of a second lie before the next one
    have hseconds := Nat.mul_le_mul_right framesPerSecond (Nat.succ_le_of_lt hlt)
    have hframes := Nat.min_le_right (roundHalfUp (rounded (count % perOne * 75))) (framesPerSecond - 1)
    rw [Nat.succ_mul] at hseconds
    rw [framesOf, framesOf]
    simp only [framesPerSecond] at hseconds hframes ⊢
    omega
  · have hrest : count % perOne ≤ greater % perOne := by
      have hcount := Nat.div_add_mod count perOne
      have hgreater := Nat.div_add_mod greater perOne
      rw [heq] at hcount
      omega
    have hframes := roundHalfUp_mono (rounded_mono (Nat.mul_le_mul_right 75 hrest))
    rw [framesOf, framesOf, heq]
    exact Nat.add_le_add_left (min_le_min_right _ hframes) _

/-- A count is shown as less than a frame away from it, though it is rounded twice for that. -/
theorem framesOf_near (count : Nat) :
    framesOf count * perOne < count * 75 + perOne ∧ count * 75 < framesOf count * perOne + perOne := by
  have hpositive := perOne_pos
  have hrest := Nat.mod_lt count hpositive
  have hcount : count / perOne * 75 * perOne + count % perOne * 75 = count * 75 := by
    have hdivision := congrArg (· * 75) (Nat.div_add_mod' count perOne)
    rw [Nat.add_mul] at hdivision
    rw [Nat.mul_right_comm]
    exact hdivision
  rw [framesOf, Nat.add_mul, framesPerSecond, ← hcount]
  generalize count % perOne = rest at hrest
  obtain ⟨whole, part, hframes, hpart⟩ : ∃ whole part, rest * 75 = whole * perOne + part ∧ part < perOne :=
    ⟨rest * 75 / perOne, rest * 75 % perOne, (Nat.div_add_mod' _ _).symm, Nat.mod_lt _ hpositive⟩
  have hwhole : whole < 75 := by
    by_contra hlarge
    have hmul := Nat.mul_le_mul_right perOne (not_lt.mp hlarge)
    omega
  have hexact : ∀ frame ≤ 75, rounded (frame * perOne) = frame * perOne := by
    intro frame hframe
    rw [perOne_eq]
    exact rounded_mul_two_pow (by omega) 1074
  have hlower := rounded_mono (Nat.le_add_right (whole * perOne) part)
  have hupper := rounded_mono (Nat.add_le_add_left hpart.le (whole * perOne))
  rw [hexact whole (by omega), ← hframes] at hlower
  rw [← Nat.succ_mul, hexact (whole + 1) (by omega), ← hframes] at hupper
  obtain ⟨hleast, hmost⟩ := roundHalfUp_bounds hlower hupper
  rw [hframes] at hleast hmost ⊢
  -- it is rounded up only from behind the frame, as the frame itself is exact
  have hnext : roundHalfUp (rounded (whole * perOne + part)) = whole + 1 → 0 < part := by
    intro heq
    by_contra hnone
    rw [Nat.eq_zero_of_not_pos hnone, Nat.add_zero, hexact whole (by omega), roundHalfUp_mul_perOne] at heq
    omega
  generalize roundHalfUp (rounded (whole * perOne + part)) = nearest at hleast hmost hnext
  obtain hmin | hmin : min nearest (75 - 1) = whole ∨ min nearest (75 - 1) = whole + 1 ∧ 0 < part := by omega
  · rw [hmin]
    omega
  · rw [hmin.1, Nat.succ_mul]
    omega

theorem shown_of_isFinite {seconds : Float} (h : seconds.isFinite = true) :
    (shown seconds).isFinite = true ∧ units (shown seconds) = max (units seconds) 0 := by
  have hatLeast : shown seconds = if 0.0 < seconds then seconds else 0.0 := if_pos h
  have hpositive : 0.0 < seconds ↔ 0 < units seconds := lt_iff_units rfl h
  rw [hatLeast]
  by_cases hlt : 0.0 < seconds
  · rw [if_pos hlt, max_eq_left (hpositive.mp hlt).le]
    exact ⟨h, rfl⟩
  · rw [if_neg hlt, max_eq_right (not_lt.mp (mt hpositive.mpr hlt))]
    exact ⟨rfl, units_null⟩

theorem frameCount_eq {seconds : Float} (h : InRange seconds) :
    frameCount seconds = framesOf (units seconds).toNat := by
  obtain ⟨hfinite, hlt⟩ := h
  obtain ⟨hshown, hunits⟩ := shown_of_isFinite hfinite
  have hlimit : units seconds < (2 ^ 53 * perOne : Nat) := units_limit ▸ (lt_iff_units hfinite rfl).mp hlt
  have hcount : units (shown seconds) = ((units seconds).toNat : Int) := by omega
  generalize (units seconds).toNat = count at hcount
  have hpositive := perOne_pos
  have hbound : count < 2 ^ 53 * perOne := by omega
  have hword : count < 2 ^ 64 * perOne := hbound.trans (Nat.mul_lt_mul_of_pos_right (by decide) perOne_pos)
  have hwhole : wholeSeconds seconds = count / perOne := toNat_toUInt64 hshown hcount hword
  obtain ⟨hrest, hrestUnits⟩ := isFinite_sub_whole hshown hcount hbound
  have hpart : wholePart (shown seconds) = (shown seconds).toUInt64.toFloat := by
    refine if_pos ((lt_iff_units hshown rfl).mpr ?_)
    rw [hcount, units_limit]
    exact Int.ofNat_lt.mpr hbound
  -- what is beyond the whole seconds is exact, and its frames are rounded twice: to a double and to a whole number
  have hsmall : rounded (count % perOne * 75) ≤ 2 ^ 7 * perOne := by
    have hlt := Nat.mod_lt count perOne_pos
    rw [← two_pow_mul_perOne]
    refine rounded_le_of_pow ?_
    rw [two_pow_mul_perOne]
    omega
  obtain ⟨hproduct, hproductUnits⟩ := isFinite_mul hrest rfl units_seventyFive (by
    rw [hrestUnits, ← Int.natCast_mul, Int.natAbs_natCast, overflow_eq]
    refine hsmall.trans_lt (Nat.mul_lt_mul_of_pos_right ?_ perOne_pos)
    gcongr <;> decide)
  rw [hrestUnits, ← Int.natCast_mul, nearestUnits_natCast] at hproductUnits
  have hnearest := nearestWhole_eq hproduct hproductUnits
    (hsmall.trans_lt (Nat.mul_lt_mul_of_pos_right (by decide) perOne_pos))
  rw [frameCount, frames, hwhole, hpart, hnearest, framesOf]

/-- A count of frames shows a time when it is less than a frame away from it; a time before zero
counts as zero. -/
def Shows (count : Nat) (seconds : Float) : Prop :=
  |(count * perOne : Nat) - max (units seconds) 0 * framesPerSecond| < perOne

/-- The frames that a time is shown as are less than a frame away from it. -/
theorem shows_frameCount {seconds : Float} (h : InRange seconds) : Shows (frameCount seconds) seconds := by
  have hnear := framesOf_near (units seconds).toNat
  rw [← frameCount_eq h] at hnear
  rw [Shows, framesPerSecond, abs_lt]
  omega

/-- A later time is shown as the same frame or a later one. -/
theorem frameCount_mono {first second : Float} (hfirst : InRange first) (hsecond : InRange second)
    (h : first ≤ second) : frameCount first ≤ frameCount second := by
  have hunits := (le_iff_units hfirst.1 hsecond.1).mp h
  rw [frameCount_eq hfirst, frameCount_eq hsecond]
  exact framesOf_mono (Int.toNat_le_toNat hunits)

example : frameCount 0.9967 = 74 ∧ frameCount 1.0 = 75 := by decide +kernel

end CueTime

end Segue
