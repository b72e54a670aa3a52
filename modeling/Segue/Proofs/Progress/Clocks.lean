import Segue.Proofs.Double.Decimals
import Segue.Proofs.Numeral.Places
import Segue.Proofs.Progress.Elapsed

/-!
Clocks as the engine writes them. Main statement: hours, minutes and seconds with a fraction are
read as the time that they make, but for rounding, unless that is too large for a double. Behind a
minus they are read as a time beyond zero just when they have no hours and are more than half of the
least double, since a zero of hours loses the minus.
-/

namespace Segue

namespace Numeral

open Segue.Double
open Json (AreDigits)

section

variable {sign whole places digits : List Char} {negative : Bool}

theorem isNumber_whole (hsign : IsSign sign negative) (hwhole : AreDigits whole) :
    IsNumber (sign ++ whole) (nearest negative (digitsValue whole) 0) := by
  have hdecimal : IsDecimal negative _ _ := @IsDecimal.parts negative whole [] none 0
    (by rwa [Option.getD_none, List.append_nil]) .none
  simpa [Json.Figure.placesText] using IsNumber.decimal hsign hdecimal

theorem isNumber_places (hsign : IsSign sign negative) (hwhole : AreDigits whole) (hplaces : AreDigits places) :
    IsNumber (sign ++ (whole ++ '.' :: places))
      (nearest negative (digitsValue (whole ++ places)) (-(places.length : Int))) := by
  have hdecimal : IsDecimal negative _ _ := @IsDecimal.parts negative whole [] (some places) 0
    ⟨by simp [hwhole.1], List.forall_mem_append.mpr ⟨hwhole.2, hplaces.2⟩⟩ .none
  simpa [Json.Figure.placesText] using IsNumber.decimal hsign hdecimal

theorem toNat_of_isDigit {c : Char} (h : c.isDigit = true) : 48 ≤ c.toNat ∧ c.toNat ≤ 57 := by
  simp only [Char.isDigit, Bool.and_eq_true, decide_eq_true_eq, UInt32.le_iff_toNat_le, Char.reduceVal,
    UInt32.reduceToNat, ge_iff_le] at h
  exact h

theorem digitsValue_lt (hdigits : ∀ c ∈ digits, c.isDigit = true) : digitsValue digits < 10 ^ digits.length := by
  induction digits using List.reverseRecOn with
  | nil => decide
  | append_singleton digits c ih =>
      obtain ⟨hfront, hlast⟩ := List.forall_mem_append.mp hdigits
      have hdigit := toNat_of_isDigit (hlast c List.mem_cons_self)
      have hvalue : digitsValue [c] = 10 * 0 + (c.toNat - 48) := rfl
      have hfront := ih hfront
      rw [digitsValue_append, List.length_append, List.length_singleton, Nat.pow_succ]
      omega

end

end Numeral

namespace Progress

open Segue.Double Segue.Numeral
open Json (AreDigits)
open Text (isBlank)

/-- What a clock shows: the time since the start, cut at the hours, the minutes and the seconds. -/
structure Clock where
  hours : Nat
  minutes : Nat
  seconds : Nat
  /-- The digits behind the point. -/
  fraction : List Char
  minutes_lt : minutes < 60
  seconds_lt : seconds < 60
  fraction_digits : AreDigits fraction

namespace Clock

def time (clock : Clock) : Rat :=
  clock.hours * 3600 + clock.minutes * 60 + clock.seconds +
    digitsValue clock.fraction / 10 ^ clock.fraction.length

/-- The fields with colons between them, behind a minus or without. -/
def word (clock : Clock) (negative : Bool) : List Char :=
  ((if negative then ['-'] else []) ++ (twoDigits clock.hours).toList) ++ ':' ::
    ((twoDigits clock.minutes).toList ++ ':' :: ((twoDigits clock.seconds).toList ++ '.' :: clock.fraction))

/-- What the engine writes of a clock. -/
def text (clock : Clock) (negative : Bool) : List Char := timeMark ++ clock.word negative

/-- The digits of the seconds and those behind the point, as one number. -/
def digits (clock : Clock) : Nat := clock.seconds * 10 ^ clock.fraction.length + digitsValue clock.fraction

def total (clock : Clock) (negative : Bool) : Float :=
  nearest negative clock.hours 0 * 3600.0 + nearest false clock.minutes 0 * 60.0 +
    nearest false clock.digits (-(clock.fraction.length : Int))

variable (clock : Clock) (negative : Bool)

/-- No digit, sign, colon or point is blank, and none begins a mark. -/
theorem of_mem_word {c : Char} (h : c ∈ clock.word negative) : isBlank c = false ∧ c ≠ 't' := by
  have hdigit : c.isDigit = true → isBlank c = false ∧ c ≠ 't' := by
    intro hdigit
    have hrange := toNat_of_isDigit hdigit
    refine ⟨?_, ?_⟩
    · simp only [isBlank, Bool.or_eq_false_iff, Bool.and_eq_false_iff, beq_eq_false_iff_ne, decide_eq_false_iff_not]
      omega
    · rintro rfl
      exact absurd hrange (by decide)
  simp only [word, List.mem_append, List.mem_cons] at h
  rcases h with (hsign | hhours) | rfl | hminutes | rfl | hseconds | rfl | hfraction
  · cases negative with
    | true =>
        obtain rfl := List.mem_singleton.mp hsign
        decide
    | false => cases hsign
  · exact hdigit ((areDigits_padZeros 2 _).2 c hhours)
  · decide
  · exact hdigit ((areDigits_padZeros 2 _).2 c hminutes)
  · decide
  · exact hdigit ((areDigits_padZeros 2 _).2 c hseconds)
  · decide
  · exact hdigit (clock.fraction_digits.2 c hfraction)

theorem firstWord_word {behind : List Char} (hbehind : ∀ c, behind.head? = some c → isBlank c = true) :
    Text.firstWord (clock.word negative ++ behind) = clock.word negative := by
  have hsome : clock.word negative ≠ [] := by simp [word]
  exact (Text.isFirstWord_iff.mp (@Text.IsFirstWord.between [] _ _ nofun hsome
    (fun c hc => (clock.of_mem_word negative hc).1) hbehind)).2

/-- The fields of a clock are the numbers that it is made of. -/
theorem isNumber_fields :
    IsNumber ((if negative then ['-'] else []) ++ (twoDigits clock.hours).toList) (nearest negative clock.hours 0) ∧
      IsNumber (twoDigits clock.minutes).toList (nearest false clock.minutes 0) ∧
      IsNumber ((twoDigits clock.seconds).toList ++ '.' :: clock.fraction)
        (nearest false clock.digits (-(clock.fraction.length : Int))) := by
  have hvalue : ∀ n, digitsValue (twoDigits n).toList = n := digitsValue_padZeros 2
  have hdigits : ∀ n, AreDigits (twoDigits n).toList := areDigits_padZeros 2
  have hsign : IsSign (if negative then ['-'] else []) negative := by
    cases negative with
    | true => exact .minus
    | false => exact .none
  have hhours := isNumber_whole hsign (hdigits clock.hours)
  have hminutes := isNumber_whole .none (hdigits clock.minutes)
  have hseconds := isNumber_places .none (hdigits clock.seconds) clock.fraction_digits
  rw [hvalue] at hhours
  rw [hvalue, List.nil_append] at hminutes
  rw [digitsValue_append, hvalue, ← digits, List.nil_append] at hseconds
  exact ⟨hhours, hminutes, hseconds⟩

/-- A clock in front of a blank is read as what its fields make, when that is a time. -/
theorem clock?_word {behind : List Char} (hbehind : ∀ c, behind.head? = some c → isBlank c = true) :
    clock? (clock.word negative ++ behind) =
      if (clock.total negative).isFinite ∧ 0.0 ≤ clock.total negative then some (clock.total negative) else none := by
  obtain ⟨hhours, hminutes, hseconds⟩ := clock.isNumber_fields negative
  have hfields : clockFields? (clock.word negative) = _ :=
    clockFields?_append hhours.colon_not_mem hminutes.colon_not_mem
  rw [clock?, clock.firstWord_word negative hbehind, hfields]
  simp only [Option.bind_eq_bind, Option.bind_some, float?_eq_some_iff.mpr hhours, float?_eq_some_iff.mpr hminutes,
    float?_eq_some_iff.mpr hseconds]
  rfl

theorem elapsed?_append {front : List Char} (h : 't' ∉ front) (behind : List Char) :
    elapsed? (front ++ behind) = elapsed? behind := by
  induction front with
  | nil => rfl
  | cons c front ih =>
      rw [List.mem_cons, not_or] at h
      have hmark : ¬ timeMark.isPrefixOf (c :: (front ++ behind)) = true := by
        rw [List.isPrefixOf_iff_prefix]
        rintro ⟨rest, hrest⟩
        exact h.1 (List.cons.inj hrest).1
      rw [List.cons_append, elapsed?, ih h.2, if_neg hmark]
      cases elapsed? behind <;> rfl

/-- In front of text without a time it is the clock that is read. -/
theorem elapsed?_text {behind : List Char} (hblank : ∀ c, behind.head? = some c → isBlank c = true)
    (hbehind : elapsed? behind = none) :
    elapsed? (clock.text negative ++ behind) =
      if (clock.total negative).isFinite ∧ 0.0 ≤ clock.total negative then some (clock.total negative) else none := by
  have hword : 't' ∉ clock.word negative := fun hmem => (clock.of_mem_word negative hmem).2 rfl
  -- behind its first letter there is no other that begins a mark
  have hnone : elapsed? ("ime=".toList ++ (clock.word negative ++ behind)) = none := by
    rw [elapsed?_append (by decide), elapsed?_append hword, hbehind]
  have htext : clock.text negative ++ behind = 't' :: ("ime=".toList ++ (clock.word negative ++ behind)) := by
    rw [text, List.append_assoc]
    rfl
  have hmark : timeMark.isPrefixOf ('t' :: ("ime=".toList ++ (clock.word negative ++ behind))) = true := by
    rw [List.isPrefixOf_iff_prefix]
    exact ⟨clock.word negative ++ behind, rfl⟩
  rw [htext, elapsed?, hnone]
  dsimp only
  rw [if_pos hmark]
  exact clock.clock?_word negative hblank

/-! ### Sizes of clocks -/

def hoursSize : Nat := rounded (rounded (clock.hours * perOne) * 3600)

def secondsSize : Nat := roundedRatio (clock.digits * perOne) (10 ^ clock.fraction.length)

/-- The units that the fields make, rounded after each operation. -/
def size : Nat := rounded (rounded (clock.hoursSize + clock.minutes * 60 * perOne) + clock.secondsSize)

theorem hour_exact : (3600.0 : Float).isFinite = true ∧ units 3600.0 = (3600 * perOne : Nat) := by
  have hliteral : (3600.0 : Float) = Float.ofNat 3600 := by decide +kernel
  rw [hliteral]
  exact ofNat_exact (by decide)

/-- The minutes have their bits. -/
theorem isNearest_minutes :
    IsNearest (nearest false clock.minutes 0 * 60.0) (clock.minutes * 60 * perOne) := by
  have hminutes := clock.minutes_lt
  have hproduct := (isNearest_nearest_whole clock.minutes).mul sixty_exact.1 sixty_exact.2 (by decide)
  rwa [rounded_count (by omega), Nat.mul_right_comm, rounded_count (by omega)] at hproduct

theorem isNearest_seconds :
    IsNearest (nearest false clock.digits (-(clock.fraction.length : Int))) clock.secondsSize :=
  isNearest_nearest _ _

theorem isNearest_total : IsNearest (clock.total false) clock.size :=
  (((isNearest_nearest_whole clock.hours).mul hour_exact.1 hour_exact.2 (by decide)).add clock.isNearest_minutes).add
    clock.isNearest_seconds

theorem time_mul_perOne : clock.time * perOne = clock.hours * perOne * 3600 + clock.minutes * 60 * perOne +
    (clock.digits * perOne : Nat) / (10 ^ clock.fraction.length : Nat) := by
  have hpower : (10 ^ clock.fraction.length : Rat) ≠ 0 := by positivity
  rw [time, digits]
  push_cast
  field_simp
  ring

/-- Rounding changes a time by no more than its part of `2 ^ 50` and a unit. -/
theorem size_near : |(clock.size : Rat) - clock.time * perOne| ≤ clock.time * perOne / 2 ^ 50 + 1 := by
  have hhours := rounded_near (clock.hours * perOne)
  have hproduct := rounded_near (rounded (clock.hours * perOne) * 3600)
  have hsum := rounded_near (clock.hoursSize + clock.minutes * 60 * perOne)
  have hseconds := roundedRatio_near (clock.digits * perOne) (Nat.pow_pos (by decide) : 0 < 10 ^ clock.fraction.length)
  have htotal := rounded_near (rounded (clock.hoursSize + clock.minutes * 60 * perOne) + clock.secondsSize)
  have hnonneg : (0 : Rat) ≤ (clock.digits * perOne : Nat) / (10 ^ clock.fraction.length : Nat) := by positivity
  rw [← hoursSize] at hproduct
  rw [← secondsSize] at hseconds
  rw [← size] at htotal
  rw [time_mul_perOne]
  generalize ((clock.digits * perOne : Nat) : Rat) / (10 ^ clock.fraction.length : Nat) = exact at hseconds hnonneg ⊢
  push_cast at hhours hproduct hsum htotal
  have hwhole : (0 : Rat) ≤ clock.hours * perOne := by positivity
  have hminutes : (0 : Rat) ≤ clock.minutes * 60 * perOne := by positivity
  rw [abs_le] at hhours hproduct hsum hseconds htotal ⊢
  constructor <;> linarith

/-- No time in the lower half of the range of doubles is too large for one. -/
theorem size_lt_overflow {bits : Nat} (hbits : bits + 1 = 1024) (h : clock.time < 2 ^ bits) :
    clock.size < overflow := by
  have hone : (1 : Rat) ≤ perOne := by exact_mod_cast perOne_pos
  have htwo : (2 : Rat) ≤ 2 ^ bits := le_self_pow₀ (by norm_num) (by omega)
  have hoverflow : (overflow : Rat) = 2 * (2 ^ bits * perOne) := by
    rw [overflow_eq, ← hbits, Nat.pow_succ]
    push_cast
    ring
  have hscaled : clock.time * perOne < 2 ^ bits * perOne := mul_lt_mul_of_pos_right h perOne_pos_rat
  have hleast : (2 : Rat) ≤ 2 ^ bits * perOne := htwo.trans (le_mul_of_one_le_right (by positivity) hone)
  have hnear := (abs_le.mp clock.size_near).2
  have hless : (clock.size : Rat) < overflow := by
    rw [hoverflow]
    linarith
  exact_mod_cast hless

/-- A zero of hours is nothing beside the minutes, whatever its sign. -/
theorem total_of_hours_eq_zero (h : clock.hours = 0) : clock.total true = clock.total false := by
  have hminutes : ∀ minutes < 60, nearest true 0 0 * 3600.0 + nearest false minutes 0 * 60.0 =
      nearest false 0 0 * 3600.0 + nearest false minutes 0 * 60.0 := by
    decide +kernel
  rw [total, total, h, hminutes _ clock.minutes_lt]

theorem digits_lt : clock.digits < 60 * 10 ^ clock.fraction.length := by
  have hfraction := digitsValue_lt clock.fraction_digits.2
  have hseconds := Nat.mul_le_mul_right (10 ^ clock.fraction.length) (Nat.le_of_lt_succ clock.seconds_lt)
  rw [digits]
  omega

/-- The seconds are no more than a minute. -/
theorem secondsSize_le : clock.secondsSize ≤ 60 * perOne := by
  have hpower : 0 < 10 ^ clock.fraction.length := Nat.pow_pos (by decide)
  have hle : clock.digits * perOne ≤ 60 * perOne * 10 ^ clock.fraction.length := by
    rw [Nat.mul_right_comm]
    exact Nat.mul_le_mul_right _ clock.digits_lt.le
  refine (roundedRatio_mono hpower hle).trans_eq ?_
  rw [roundedRatio_mul_self _ hpower, rounded_count (by decide)]

/-- Hours behind a minus are no less than one before the start. -/
theorem units_hours_le (h : clock.hours ≠ 0) (hproduct : (nearest true clock.hours 0 * 3600.0).isFinite = true) :
    units (nearest true clock.hours 0 * 3600.0) ≤ -(3600 * perOne : Nat) := by
  obtain ⟨hnegative, hhour⟩ := finite_of_mul hproduct
  have hhours := finite_of_neg hnegative
  have hunits := (isNearest_nearest_whole clock.hours).units_eq hhours
  have hneg : units (nearest true clock.hours 0) = -units (nearest false clock.hours 0) := (units_neg hhours).2
  have hleast : perOne ≤ rounded (clock.hours * perOne) := by
    refine Nat.le_trans (Nat.le_of_eq ?_) (rounded_mono (Nat.le_mul_of_pos_left perOne (Nat.pos_of_ne_zero h)))
    rw [← Nat.one_mul perOne, rounded_count (by decide)]
  rw [units_mul hnegative hhour hour_exact.2 hproduct, ← nearestUnits_neg_count (by decide)]
  refine nearestUnits_mono ?_
  rw [hneg, hunits]
  omega

/-- An hour before the start outweighs the minutes and the seconds beside it. -/
theorem units_total_nonpos (h : clock.hours ≠ 0) (hfinite : (clock.total true).isFinite = true) :
    units (clock.total true) ≤ 0 := by
  -- the hours make an hour at least below zero, the minutes less than one and the seconds the rest of it at most
  obtain ⟨hpart, hseconds⟩ := finite_of_add hfinite
  obtain ⟨hproduct, hminutes⟩ := finite_of_add hpart
  have hhours := clock.units_hours_le h hproduct
  have hpartUnits : units (nearest true clock.hours 0 * 3600.0 + nearest false clock.minutes 0 * 60.0) ≤
      -(60 * perOne : Nat) := by
    rw [units_add hproduct hminutes hpart, ← nearestUnits_neg_count (by decide)]
    refine nearestUnits_mono ?_
    have hminute := clock.minutes_lt
    have hmost : clock.minutes * 60 * perOne ≤ 3540 * perOne := Nat.mul_le_mul_right _ (by omega)
    rw [clock.isNearest_minutes.units_eq hminutes]
    omega
  have hmost := clock.secondsSize_le
  have hseconds' := clock.isNearest_seconds.units_eq hseconds
  refine (units_add hpart hseconds hfinite).trans_le ((nearestUnits_mono ?_).trans_eq nearestUnits_zero)
  omega

theorem size_of_hours_eq_zero (h : clock.hours = 0) :
    clock.size = rounded (clock.minutes * 60 * perOne + clock.secondsSize) := by
  have hminutes := clock.minutes_lt
  have hnone : clock.hoursSize = 0 := by
    rw [hoursSize, h, Nat.zero_mul]
    decide
  rw [size, hnone, Nat.zero_add, rounded_count (by omega)]

/-- What has no hours is less than one, and so not too large for a double. -/
theorem size_lt_of_hours_eq_zero (h : clock.hours = 0) : clock.size < overflow := by
  have hminutes := clock.minutes_lt
  have hmost : clock.minutes * 60 * perOne ≤ 3540 * perOne := Nat.mul_le_mul_right _ (by omega)
  have hseconds := clock.secondsSize_le
  have hhour : clock.size ≤ rounded (3600 * perOne) := by
    rw [clock.size_of_hours_eq_zero h]
    exact rounded_mono (by omega)
  rw [rounded_count (by decide)] at hhour
  exact hhour.trans_lt (count_lt_overflow hour_exact.1 hour_exact.2)

/-- What has no hours is positive when it is more than half a unit. -/
theorem size_pos_iff (h : clock.hours = 0) : 0 < clock.size ↔ 1 / 2 < clock.time * perOne := by
  -- a minute is beyond half a unit, and without one the seconds alone decide
  have hpower : 0 < 10 ^ clock.fraction.length := Nat.pow_pos (by decide)
  have hratio : 0 < clock.secondsSize ↔ _ := roundedRatio_pos_iff hpower
  rw [clock.size_of_hours_eq_zero h, rounded_pos_iff, clock.time_mul_perOne, h]
  rcases Nat.eq_zero_or_pos clock.minutes with hnone | hsome
  · have hscaled : 10 ^ clock.fraction.length < 2 * (clock.digits * perOne) ↔
        (1 / 2 : Rat) < (clock.digits * perOne : Nat) / (10 ^ clock.fraction.length : Nat) := by
      rw [div_lt_div_iff₀ (by norm_num) (Nat.cast_pos.mpr hpower)]
      norm_cast
      rw [Nat.one_mul, Nat.mul_comm _ 2]
    rw [hnone]
    simpa [hratio] using hscaled
  · have hone : 1 ≤ clock.minutes * 60 * perOne := Nat.mul_pos (Nat.mul_pos hsome (by decide)) perOne_pos
    have hrest : (0 : Rat) ≤ (clock.digits * perOne : Nat) / (10 ^ clock.fraction.length : Nat) := by positivity
    have hsum : (1 : Rat) ≤ clock.minutes * 60 * perOne := by exact_mod_cast hone
    refine iff_of_true (by omega) ?_
    push_cast at hrest ⊢
    linarith

theorem total_near (hfinite : (clock.total false).isFinite = true) :
    |value (clock.total false) - clock.time| ≤ clock.time / 2 ^ 50 + 1 / perOne := by
  have hunit := perOne_pos_rat
  have hscaled : value (clock.total false) - clock.time = (clock.size - clock.time * perOne) / perOne := by
    rw [value, clock.isNearest_total.units_eq hfinite, Int.cast_natCast]
    field_simp
  have hbound : clock.time / 2 ^ 50 + 1 / perOne = (clock.time * perOne / 2 ^ 50 + 1) / perOne := by
    field_simp
  rw [hscaled, hbound, abs_div, abs_of_pos hunit, div_le_div_iff_of_pos_right hunit]
  exact clock.size_near

/-- A clock that is not too large for a double is a time from zero on. -/
theorem isTime_total (h : clock.size < overflow) :
    (clock.total false).isFinite = true ∧ 0.0 ≤ clock.total false ∧ units (clock.total false) = clock.size := by
  have hfinite := clock.isNearest_total.isFinite_iff.mpr h
  have hunits := clock.isNearest_total.units_eq hfinite
  refine ⟨hfinite, ?_, hunits⟩
  rw [le_iff_units rfl hfinite, hunits]
  exact Int.natCast_nonneg _

end Clock

/-- A clock in front of text without a time is read unless it is too large for a double, and then as
its time but for rounding. Behind a minus it is read as a time beyond zero just when it has no hours
and is more than half of the least double. -/
theorem elapsed?_clock (clock : Clock) {behind : List Char}
    (hblank : ∀ c, behind.head? = some c → isBlank c = true) (hbehind : elapsed? behind = none) :
    ((∃ total, elapsed? (clock.text false ++ behind) = some total) ↔ clock.size < overflow) ∧
      (clock.time < 2 ^ 1023 → clock.size < overflow) ∧
      (∀ total, elapsed? (clock.text false ++ behind) = some total →
        |value total - clock.time| ≤ clock.time / 2 ^ 50 + 1 / perOne) ∧
      ((∃ total, elapsed? (clock.text true ++ behind) = some total ∧ 0.0 < total) ↔
        clock.hours = 0 ∧ 1 / 2 < clock.time * perOne) := by
  have hread : ∀ {negative : Bool} {total : Float}, elapsed? (clock.text negative ++ behind) = some total ↔
      ((clock.total negative).isFinite = true ∧ 0.0 ≤ clock.total negative) ∧ clock.total negative = total := by
    intro negative total
    rw [clock.elapsed?_text negative hblank hbehind, Option.ite_none_right_eq_some, Option.some.injEq]
  refine ⟨⟨?_, fun hlt => ?_⟩, clock.size_lt_overflow rfl, ?_, ⟨?_, ?_⟩⟩
  · rintro ⟨total, htotal⟩
    exact clock.isNearest_total.isFinite_iff.mp (hread.mp htotal).1.1
  · obtain ⟨hfinite, hsign, -⟩ := clock.isTime_total hlt
    exact ⟨_, hread.mpr ⟨⟨hfinite, hsign⟩, rfl⟩⟩
  · intro total htotal
    obtain ⟨⟨hfinite, -⟩, rfl⟩ := hread.mp htotal
    exact clock.total_near hfinite
  · rintro ⟨total, htotal, hpositive⟩
    obtain ⟨⟨hfinite, -⟩, rfl⟩ := hread.mp htotal
    rw [lt_iff_units rfl hfinite] at hpositive
    by_cases hhours : clock.hours = 0
    · refine ⟨hhours, (clock.size_pos_iff hhours).mp ?_⟩
      obtain ⟨-, -, hunits⟩ := clock.isTime_total (clock.size_lt_of_hours_eq_zero hhours)
      rw [clock.total_of_hours_eq_zero hhours, hunits] at hpositive
      exact Int.natCast_pos.mp hpositive
    · exact absurd hpositive (clock.units_total_nonpos hhours hfinite).not_gt
  · rintro ⟨hhours, hhalf⟩
    obtain ⟨hfinite, hsign, hunits⟩ := clock.isTime_total (clock.size_lt_of_hours_eq_zero hhours)
    have hsame := clock.total_of_hours_eq_zero hhours
    refine ⟨_, hread.mpr ⟨hsame ▸ ⟨hfinite, hsign⟩, hsame⟩, (lt_iff_units rfl hfinite).mpr ?_⟩
    rw [hunits]
    exact Int.natCast_pos.mpr ((clock.size_pos_iff hhours).mpr hhalf)

def oneSecond : Clock where
  hours := 0
  minutes := 0
  seconds := 1
  fraction := ['0', '0']
  minutes_lt := by decide
  seconds_lt := by decide
  fraction_digits := by decide

theorem elapsed?_clock_oneSecond :
    (∀ c, " bitrate=N/A".toList.head? = some c → isBlank c = true) ∧ elapsed? " bitrate=N/A".toList = none ∧
      (∃ total, elapsed? (oneSecond.text false ++ " bitrate=N/A".toList) = some total) ∧
      ∃ total, elapsed? (oneSecond.text true ++ " bitrate=N/A".toList) = some total ∧ 0.0 < total := by
  have hblank : ∀ c, " bitrate=N/A".toList.head? = some c → isBlank c = true := by
    rintro c ⟨⟩
    decide
  have hbehind : elapsed? " bitrate=N/A".toList = none := by decide
  have htime : oneSecond.time = 1 := by decide +kernel
  obtain ⟨hread, hsize, -, hminus⟩ := elapsed?_clock oneSecond hblank hbehind
  refine ⟨hblank, hbehind, hread.mpr (hsize ?_), hminus.mpr ⟨rfl, ?_⟩⟩
  · rw [htime]
    exact one_lt_pow₀ (by norm_num) (by decide)
  · have hone : (1 : Rat) ≤ perOne := by exact_mod_cast perOne_pos
    rw [htime]
    linarith

/-- A second before the start is read as one behind it. -/
theorem elapsed?_beforeStart :
    oneSecond.text true = "time=-00:00:01.00".toList ∧ oneSecond.time = 1 ∧
      elapsed? (oneSecond.text true) = some 1.0 ∧ (0.0 : Float) < 1.0 := by
  decide +kernel

end Progress

end Segue
