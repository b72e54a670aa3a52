import Segue.Proofs.Cue.Reading
import Segue.Proofs.Double.Exact

/-!
Times as they are written. Main statements: a text is read as a time just when it consists of
minutes, seconds and frames in so many digits, with no more seconds and frames than there can be;
and any time that fits a word is written less than a frame away from it, and no later time is
written as an earlier one.
-/

namespace Segue

namespace Double

variable {x : Float}

/-- Nothing of a large double is behind the point. -/
theorem mod_perOne_of_large {count : Nat} (hx : x.isFinite = true) (hcount : units x = count)
    (hlarge : 2 ^ 53 * perOne ≤ count) : count % perOne = 0 := by
  obtain ⟨bits, hbits⟩ : ∃ bits : Nat, bits = 1074 := ⟨_, rfl⟩
  rw [← two_pow_eq_perOne hbits, ← Nat.pow_add] at hlarge
  obtain ⟨significand, -, more, hmore, rfl⟩ := exists_two_pow_dvd hx hcount hlarge
  rw [← two_pow_eq_perOne hbits]
  exact Nat.mod_eq_zero_of_dvd ((Nat.pow_dvd_pow 2 hmore.le).mul_left significand)

theorem sub_self_exact (hx : x.isFinite = true) : (x - x).isFinite = true ∧ units (x - x) = 0 := by
  have hfinite : (x - x).isFinite = true := by
    refine isFinite_sub hx hx ?_
    rw [sub_self]
    exact overflow_pos
  refine ⟨hfinite, ?_⟩
  rw [units_sub hx hx hfinite, sub_self, nearestUnits_zero]

/-- The first whole number that does not fit a word. -/
theorem units_wordLimit : units 18446744073709551616.0 = (2 ^ 64 * perOne : Nat) := by
  have hunpack : (18446744073709551616.0 : Float).toModel.unpack = .finite .positive (2 ^ 52) 12 (by decide) := rfl
  rw [units_of_unpack hunpack, sizeOf_of_nonneg _ (by decide)]
  rfl

end Double

namespace CueTime

open Segue.Double Segue.Numeral

/-- A finite time whose whole seconds fit a word of 64 bits. -/
def FitsWord (seconds : Float) : Prop := seconds.isFinite = true ∧ seconds < 18446744073709551616.0

instance (seconds : Float) : Decidable (FitsWord seconds) :=
  inferInstanceAs (Decidable (seconds.isFinite = true ∧ seconds < 18446744073709551616.0))

/-- Whole seconds are shown without frames. -/
theorem framesOf_of_whole {count : Nat} (h : count % perOne = 0) :
    framesOf count = count / perOne * framesPerSecond := by
  have hrounded : rounded (0 * 75) = 0 * perOne := by
    rw [Nat.zero_mul, Nat.zero_mul]
    rfl
  rw [framesOf, h, hrounded, roundHalfUp_mul_perOne]
  rfl

/-- A time that is whole because it is large is shown without frames. -/
theorem frames_of_large {seconds : Float} {count : Nat} (hshown : (shown seconds).isFinite = true)
    (hcount : units (shown seconds) = count) (hlarge : 2 ^ 53 * perOne ≤ count) : frames seconds = 0 := by
  have hpart : wholePart (shown seconds) = shown seconds := by
    refine if_neg fun hlt => ?_
    rw [lt_iff_units hshown rfl, hcount, units_limit] at hlt
    omega
  obtain ⟨hrest, hnone⟩ := sub_self_exact hshown
  obtain ⟨hproduct, hproductUnits⟩ := isFinite_mul hrest rfl units_seventyFive (by
    rw [hnone, zero_mul]
    exact overflow_pos)
  rw [hnone, zero_mul, nearestUnits_zero] at hproductUnits
  have hnearest := nearestWhole_eq hproduct (hproductUnits.trans (by rw [Nat.zero_mul]; rfl))
    (Nat.mul_lt_mul_of_pos_right (by decide) perOne_pos)
  rw [frames, hpart, hnearest, roundHalfUp_mul_perOne]
  rfl

/-- The frames of every time that fits a word are those of its units. -/
theorem frameCount_eq_framesOf {seconds : Float} (h : FitsWord seconds) :
    frameCount seconds = framesOf (units seconds).toNat := by
  by_cases hrange : InRange seconds
  · exact frameCount_eq hrange
  obtain ⟨hfinite, hlt⟩ := h
  obtain ⟨hshown, hunits⟩ := shown_of_isFinite hfinite
  have hlimit : units seconds < (2 ^ 64 * perOne : Nat) := units_wordLimit ▸ (lt_iff_units hfinite rfl).mp hlt
  have hlarge : ((2 ^ 53 * perOne : Nat) : Int) ≤ units seconds := by
    refine not_lt.mp fun hsmall => hrange ⟨hfinite, ?_⟩
    rwa [lt_iff_units hfinite rfl, units_limit]
  have hpositive := perOne_pos
  have hcount : units (shown seconds) = ((units seconds).toNat : Int) := by omega
  have hsame : units seconds = ((units seconds).toNat : Int) := by omega
  generalize (units seconds).toNat = count at hcount hsame
  have hword : count < 2 ^ 64 * perOne := by omega
  have hlarge : 2 ^ 53 * perOne ≤ count := by omega
  have hwhole : wholeSeconds seconds = count / perOne := toNat_toUInt64 hshown hcount hword
  rw [frameCount, hwhole, frames_of_large hshown hcount hlarge,
    framesOf_of_whole (mod_perOne_of_large hfinite hsame hlarge), Nat.add_zero]

/-- A later time is shown as the same frame or a later one. -/
theorem frameCount_le {first second : Float} (hfirst : FitsWord first) (hsecond : FitsWord second)
    (h : first ≤ second) : frameCount first ≤ frameCount second := by
  rw [frameCount_eq_framesOf hfirst, frameCount_eq_framesOf hsecond]
  exact framesOf_mono (Int.toNat_le_toNat ((le_iff_units hfirst.1 hsecond.1).mp h))

/-- The frames that a time from zero up is shown as are less than one frame away from it. -/
theorem abs_frameCount_sub_lt {seconds : Float} (h : FitsWord seconds) (hstart : 0.0 ≤ seconds) :
    |(frameCount seconds : Rat) / framesPerSecond - value seconds| < 1 / framesPerSecond := by
  obtain ⟨hlower, hupper⟩ := framesOf_near (units seconds).toNat
  have hunits : units seconds = ((units seconds).toNat : Int) := by
    have hnonneg := (le_iff_units rfl h.1).mp hstart
    rw [units_null] at hnonneg
    exact (Int.toNat_of_nonneg hnonneg).symm
  rw [← frameCount_eq_framesOf h] at hlower hupper
  rw [value, hunits, Int.cast_natCast, framesPerSecond]
  generalize (units seconds).toNat = count at hlower hupper
  have hlower : (frameCount seconds * perOne : Rat) < count * 75 + perOne := by exact_mod_cast hlower
  have hupper : (count * 75 : Rat) < frameCount seconds * perOne + perOne := by exact_mod_cast hupper
  have hpositive := perOne_pos_rat
  have hscale : (0 : Rat) < 75 * perOne := by positivity
  have hdifference : (frameCount seconds : Rat) / (75 : Nat) - count / perOne =
      (frameCount seconds * perOne - count * 75) / (75 * perOne) := by
    have hnonzero := hpositive.ne'
    push_cast
    field_simp
  have hframe : (1 : Rat) / (75 : Nat) * (75 * perOne) = perOne := by
    push_cast
    ring
  rw [hdifference, abs_div, abs_of_pos hscale, div_lt_iff₀ hscale, hframe, abs_lt]
  constructor <;> linarith

/-- The digits of a time as it is written. -/
structure Fields where
  minutes : List Char
  seconds : List Char
  frames : List Char

namespace Fields

def text (fields : Fields) : List Char := [':'].intercalate [fields.minutes, fields.seconds, fields.frames]

def count (fields : Fields) : Nat :=
  (digitsValue fields.minutes * 60 + digitsValue fields.seconds) * framesPerSecond + digitsValue fields.frames

/-- Fields of digits, two or more for the minutes and two for the others, with no more seconds than
a minute has and no more frames than a second has. -/
structure IsTime (fields : Fields) : Prop where
  digits : ∀ field ∈ [fields.minutes, fields.seconds, fields.frames], ∀ c ∈ field, c.isDigit = true
  minutes : 2 ≤ fields.minutes.length
  seconds : fields.seconds.length = 2 ∧ digitsValue fields.seconds < 60
  frames : fields.frames.length = 2 ∧ digitsValue fields.frames < framesPerSecond

end Fields

theorem padded?_eq_some_iff {digits : List Char} {value : Nat} :
    padded? digits = some value ↔
      2 ≤ digits.length ∧ (∀ c ∈ digits, c.isDigit = true) ∧ digitsValue digits = value := by
  rw [padded?, Option.ite_none_right_eq_some, List.all_eq_true, Option.some.injEq, and_assoc]

theorem pair?_eq_some_iff {digits : List Char} {value : Nat} :
    pair? digits = some value ↔
      digits.length = 2 ∧ (∀ c ∈ digits, c.isDigit = true) ∧ digitsValue digits = value := by
  rw [pair?, Option.ite_none_right_eq_some, padded?_eq_some_iff]
  exact and_congr_right fun hlength => and_iff_right hlength.ge

/-- A text is read as a time just when it has the fields of one. -/
theorem read?_eq_some_iff {text : List Char} {count : Nat} :
    read? text = some count ↔ ∃ fields : Fields, fields.IsTime ∧ fields.text = text ∧ fields.count = count := by
  constructor
  · intro hread
    rw [read?] at hread
    split at hread
    · rename_i minutes seconds frames hfields
      simp only [Option.bind_eq_bind, Option.bind_eq_some_iff, pair?_eq_some_iff, padded?_eq_some_iff] at hread
      obtain ⟨_, ⟨hminutes, hminuteDigits, rfl⟩, _, ⟨hseconds, hsecondDigits, rfl⟩, _, ⟨hframes, hframeDigits, rfl⟩,
        hread⟩ := hread
      obtain ⟨⟨hfewSeconds, hfewFrames⟩, hcount⟩ := Option.ite_none_right_eq_some.mp hread
      refine ⟨⟨minutes, seconds, frames⟩, ⟨?_, hminutes, ⟨hseconds, hfewSeconds⟩, ⟨hframes, hfewFrames⟩⟩, ?_,
        Option.some.inj hcount⟩
      · simp only [List.forall_mem_cons, List.not_mem_nil, false_imp_iff, implies_true, and_true]
        exact ⟨hminuteDigits, hsecondDigits, hframeDigits⟩
      · rw [Fields.text, ← hfields, List.intercalate_splitOn]
    · cases hread
  · rintro ⟨fields, htime, rfl, rfl⟩
    obtain ⟨hminuteDigits, hsecondDigits, hframeDigits⟩ : _ ∧ _ ∧ _ := by
      simpa only [List.forall_mem_cons, List.not_mem_nil, false_imp_iff, implies_true, and_true] using htime.digits
    have hcolon : ∀ field ∈ [fields.minutes, fields.seconds, fields.frames], ':' ∉ field :=
      fun field hfield hmem => Bool.false_ne_true (htime.digits field hfield ':' hmem)
    have hminutes := padded?_eq_some_iff.mpr ⟨htime.minutes, hminuteDigits, rfl⟩
    have hseconds := pair?_eq_some_iff.mpr ⟨htime.seconds.1, hsecondDigits, rfl⟩
    have hframes := pair?_eq_some_iff.mpr ⟨htime.frames.1, hframeDigits, rfl⟩
    rw [read?, Fields.text, List.splitOn_intercalate _ hcolon (List.cons_ne_nil _ _)]
    simp only [hminutes, hseconds, hframes, Option.bind_eq_bind, Option.bind_some, htime.seconds.2, htime.frames.2,
      and_self, if_true, Fields.count]

/-- Every time at all is written with the fields of a time. -/
theorem exists_fields_text (seconds : Float) :
    ∃ fields : Fields, fields.IsTime ∧ fields.text = (text seconds).toList ∧ fields.count = frameCount seconds :=
  read?_eq_some_iff.mp (read?_text seconds)

/-- A time that is shown as nothing is written as nothing. -/
theorem text_of_shown_eq_zero {seconds : Float} (h : shown seconds = 0.0) : text seconds = "00:00:00" := by
  rw [text, wholeSeconds, frames, h]
  decide +kernel

theorem shown_eq_zero {seconds : Float} (h : seconds.isFinite = false ∨ seconds < 0.0) : shown seconds = 0.0 := by
  cases hfinite : seconds.isFinite with
  | false => rw [shown, hfinite, if_neg Bool.false_ne_true]
  | true =>
      have hnegative : seconds < 0.0 := h.resolve_left (by rw [hfinite]; decide)
      have hbelow := (lt_iff_units hfinite rfl).mp hnegative
      have hnot : ¬ (0.0 : Float) < seconds := fun habove => by
        have hbeyond := (lt_iff_units rfl hfinite).mp habove
        omega
      rw [shown, hfinite, if_pos rfl, Scalar.atLeast, if_neg hnot]

/-- Of two times that fit a word the later one is read back from its text as the same count of
frames or a greater one; a time from zero up is written with the fields of a time, which are less
than one frame away from it; and a time before zero or without a value is written as nothing. -/
theorem ordered_near_text :
    (∀ first second, FitsWord first → FitsWord second → first ≤ second →
      ∃ count greater, read? (text first).toList = some count ∧ read? (text second).toList = some greater ∧
        count ≤ greater) ∧
      (∀ seconds, FitsWord seconds → 0.0 ≤ seconds →
        ∃ fields : Fields, fields.IsTime ∧ fields.text = (text seconds).toList ∧
          |(fields.count : Rat) / framesPerSecond - value seconds| < 1 / framesPerSecond) ∧
      ∀ seconds : Float, seconds.isFinite = false ∨ seconds < 0.0 → text seconds = "00:00:00" := by
  refine ⟨fun first second hfirst hsecond hle => ?_, fun seconds hword hstart => ?_, fun seconds hnothing => ?_⟩
  · exact ⟨_, _, read?_text first, read?_text second, frameCount_le hfirst hsecond hle⟩
  · obtain ⟨fields, htime, htext, hcount⟩ := exists_fields_text seconds
    refine ⟨fields, htime, htext, ?_⟩
    rw [hcount]
    exact abs_frameCount_sub_lt hword hstart
  · exact text_of_shown_eq_zero (shown_eq_zero hnothing)

/-- A time that would be rounded to the next second, one beyond all times with frames, and one
before zero. -/
theorem ordered_near_text_beforeSecond :
    FitsWord 61.9967 ∧ FitsWord 18446744073709549568.0 ∧ (61.9967 : Float) ≤ 18446744073709549568.0 ∧
      (0.0 : Float) ≤ 61.9967 ∧ (-3.0 : Float) < 0.0 ∧
      (∃ count greater, read? (text 61.9967).toList = some count ∧
        read? (text 18446744073709549568.0).toList = some greater ∧ count ≤ greater) ∧
      (∃ fields : Fields, fields.IsTime ∧ fields.text = (text 61.9967).toList ∧
        |(fields.count : Rat) / framesPerSecond - value 61.9967| < 1 / framesPerSecond) ∧
      text (-3.0) = "00:00:00" := by
  have hfirst : FitsWord 61.9967 := by decide +kernel
  have hsecond : FitsWord 18446744073709549568.0 := by decide +kernel
  have hle : (61.9967 : Float) ≤ 18446744073709549568.0 := by decide +kernel
  have hstart : (0.0 : Float) ≤ 61.9967 := by decide +kernel
  have hnegative : (-3.0 : Float) < 0.0 := by decide +kernel
  exact ⟨hfirst, hsecond, hle, hstart, hnegative, ordered_near_text.1 _ _ hfirst hsecond hle,
    ordered_near_text.2.1 _ hfirst hstart, ordered_near_text.2.2 _ (.inr hnegative)⟩

example : text 61.9967 = "01:01:74" ∧ text 18446744073709549568.0 = "307445734561825826:08:00" := by decide +kernel

end CueTime

end Segue
