import Segue.Proofs.Cue.Stamps
import Segue.Proofs.Numeral.Places

/-!
Lengths as they are shown. Main statement: the text of a length is read back at most half a
millisecond away from it, and its minutes are those that have gone by; but its seconds are less than
sixty just when the length is not in the last half millisecond of a minute.
-/

namespace Segue

namespace Double

variable {x y : Float} {count : Nat}

/-- The bits of a double below `2 ^ 53` stand in front of zeros that a whole number has too. -/
theorem exists_two_pow_dvd_lt (hx : x.isFinite = true) (hcount : units x = count) (hlt : count < 2 ^ 53 * perOne) :
    ∃ shift, 2 ^ shift ∣ perOne ∧ 2 ^ shift ∣ count ∧ count < 2 ^ (53 + shift) := by
  obtain ⟨bits, hbits⟩ : ∃ bits : Nat, bits = 1074 := ⟨_, rfl⟩
  obtain ⟨significand, exponent, hcanonical, rfl⟩ := exists_sizeOf hx hcount
  rw [Double.sizeOf, ← two_pow_eq_perOne hbits] at hlt
  rw [Double.sizeOf, ← two_pow_eq_perOne hbits]
  generalize (exponent + 1074).toNat = shift at hlt ⊢
  rcases Nat.le_total shift bits with hle | hge
  · refine ⟨shift, pow_dvd_pow 2 hle, Nat.dvd_mul_left _ _, ?_⟩
    rw [Nat.pow_add]
    exact Nat.mul_lt_mul_of_pos_right hcanonical.lt (Nat.two_pow_pos _)
  · refine ⟨bits, dvd_rfl, (pow_dvd_pow 2 hge).mul_left _, ?_⟩
    rwa [Nat.pow_add]

/-- A double that is divided by a whole number is not rounded up to the next whole number. -/
theorem roundedRatio_div_perOne (hx : x.isFinite = true) (hcount : units x = count) (hlt : count < 2 ^ 53 * perOne)
    (divisor : Nat) (hdivisor : 0 < divisor) :
    roundedRatio count divisor / perOne = count / (divisor * perOne) := by
  obtain ⟨shift, hone, hdvd, hbits⟩ := exists_two_pow_dvd_lt hx hcount hlt
  have hpositive : 0 < divisor * perOne := Nat.mul_pos hdivisor perOne_pos
  have hbelow := Nat.div_mul_le_self count (divisor * perOne)
  have habove : count < (count / (divisor * perOne) + 1) * (divisor * perOne) := by
    rw [← Nat.div_lt_iff_lt_mul hpositive]
    exact Nat.lt_succ_self _
  have hwhole : count / (divisor * perOne) < 2 ^ 53 := by
    rw [Nat.div_lt_iff_lt_mul hpositive]
    exact hlt.trans_le (Nat.mul_le_mul_left _ (Nat.le_mul_of_pos_left _ hdivisor))
  generalize count / (divisor * perOne) = whole at hbelow habove hwhole ⊢
  refine Nat.div_eq_of_lt_le ?_ ?_
  · rw [← rounded_count hwhole, ← roundedRatio_mul_self _ hdivisor]
    refine roundedRatio_mono hdivisor (Nat.le_trans (Nat.le_of_eq ?_) hbelow)
    ring
  · -- between the count and the next whole number there is at least the last of its bits, and it is rounded by less
    by_contra hreached
    have hreached : (whole + 1) * perOne ≤ roundedRatio count divisor := not_lt.mp hreached
    have hlarge : 2 ^ 52 ≤ count / divisor := by
      rw [Nat.le_div_iff_mul_le hdivisor]
      by_contra hsmall
      have hpow := roundedRatio_le_of_pow hdivisor (not_le.mp hsmall).le
      have hless : 2 ^ 52 < perOne := by
        rw [perOne_eq]
        gcongr <;> decide
      have hnext : perOne ≤ (whole + 1) * perOne := Nat.le_mul_of_pos_left _ (Nat.succ_pos _)
      omega
    have hgrain : divisor * grain (count / divisor) * 2 ^ 52 < 2 * 2 ^ shift * 2 ^ 52 := by
      calc divisor * grain (count / divisor) * 2 ^ 52
          = divisor * (grain (count / divisor) * 2 ^ 52) := Nat.mul_assoc _ _ _
        _ ≤ divisor * (count / divisor) := Nat.mul_le_mul_left _ (grain_mul_le hlarge)
        _ ≤ count := Nat.mul_div_le count divisor
        _ < 2 ^ (53 + shift) := hbits
        _ = 2 * 2 ^ shift * 2 ^ 52 := by ring
    have hgrain := Nat.lt_of_mul_lt_mul_right hgrain
    have hnear := (Numeral.roundHalfEven_near count (Nat.mul_pos hdivisor (grain_pos (count / divisor)))).1
    have hrounded : Numeral.roundHalfEven count (divisor * grain (count / divisor)) *
        (divisor * grain (count / divisor)) = roundedRatio count divisor * divisor := by
      rw [roundedRatio]
      ring
    rw [hrounded] at hnear
    have hreached := Nat.mul_le_mul_right divisor hreached
    have hnext : (whole + 1) * perOne * divisor = (whole + 1) * (divisor * perOne) := by ring
    have hgap : 2 ^ shift ∣ (whole + 1) * (divisor * perOne) - count :=
      Nat.dvd_sub ((hone.mul_left divisor).mul_left (whole + 1)) hdvd
    have hgap := Nat.le_of_dvd (Nat.sub_pos_of_lt habove) hgap
    omega

/-- What a double has beyond a multiple of a whole number is a double. -/
theorem rounded_mod_mul_perOne (hx : x.isFinite = true) (hcount : units x = count) (hlt : count < 2 ^ 53 * perOne)
    (divisor : Nat) : rounded (count % (divisor * perOne)) = count % (divisor * perOne) := by
  obtain ⟨shift, hone, hdvd, hbits⟩ := exists_two_pow_dvd_lt hx hcount hlt
  exact rounded_of_two_pow_dvd ((Nat.dvd_mod_iff (hone.mul_left divisor)).mpr hdvd) ((Nat.mod_le _ _).trans hbits.le)

open Float.Model (Format UnpackedFloat) in
open Float.Model.UnpackedFloat in
/-- A positive double less itself is the zero without a minus. -/
theorem sub_of_units_eq (hx : x.isFinite = true) (hy : y.isFinite = true) (hsame : units x = units y)
    (hpositive : 0 < units x) : x - y = 0.0 := by
  have hregular := isRegular_of_isFinite hx
  have hregular' := isRegular_of_isFinite hy
  have hzero : sub Format.binary64 x.toModel.unpack y.toModel.unpack = .zero .positive := by
    rw [units, units] at hsame
    rw [units] at hpositive
    rw [sub_eq_add_neg]
    generalize x.toModel.unpack = value at hregular hsame hpositive ⊢
    generalize y.toModel.unpack = other at hregular' hsame ⊢
    rcases value with _ | _ | _ | ⟨sign, significand, exponent, hsignificand⟩
    · exact hregular.elim
    · exact hregular.elim
    · exact absurd hpositive (lt_irrefl 0)
    · rcases other with _ | _ | _ | ⟨sign', significand', exponent', hsignificand'⟩
      · exact hregular'.elim
      · exact hregular'.elim
      · exact absurd (hsame ▸ hpositive) (lt_irrefl 0)
      · have hlower : -1074 ≤ min exponent exponent' := le_min hregular.1.least hregular'.1.least
        have hsum : (sign.apply ((significand <<< (exponent - min exponent exponent').toNat : Nat) : Int) +
            (-sign').apply ((significand' <<< (exponent' - min exponent exponent').toNat : Nat) : Int)) *
              2 ^ (min exponent exponent' + 1074).toNat = 0 := by
          rw [add_mul, apply_shiftLeft sign significand hlower (min_le_left _ _),
            apply_shiftLeft (-sign') significand' hlower (min_le_right _ _), apply_neg, ← Int.sub_eq_add_neg]
          exact sub_eq_zero_of_eq hsame
        have hnone := (mul_eq_zero.mp hsum).resolve_right (by positivity)
        change normalize Format.binary64 (sign.apply _ + (-sign').apply _) _ .positive = _
        rw [hnone]
        rfl
  exact congrArg (fun value => Float.ofModel (.pack value)) hzero

end Double

namespace Duration

open Segue.Double Segue.Numeral
open CueTime (InRange)
open Json (AreDigits areDigits_toDigits)

/-- A length as it is shown. -/
structure Shown where
  minutes : Nat
  seconds : Nat
  millis : Nat
  deriving Repr, DecidableEq

def Shown.total (shown : Shown) : Rat := shown.minutes * 60 + shown.seconds + shown.millis / 1000

/-- Minutes, two digits for the seconds and three for the milliseconds. -/
def read? (text : List Char) : Option Shown :=
  match cutFirst ':' text with
  | (minutes, some rest) =>
    match cutFirst '.' rest with
    | (seconds, some millis) =>
      if (AreDigits minutes ∧ AreDigits seconds ∧ AreDigits millis) ∧ seconds.length = 2 ∧ millis.length = 3 then
        some ⟨digitsValue minutes, digitsValue seconds, digitsValue millis⟩
      else none
    | (_, none) => none
  | (_, none) => none

def text (minutes millis : Nat) : String :=
  toString minutes ++ ":" ++ twoDigits (millis / 1000) ++ "." ++ padZeros 3 (toString (millis % 1000))

theorem toList_text (minutes millis : Nat) :
    (text minutes millis).toList = Nat.toDigits 10 minutes ++ ':' :: ((twoDigits (millis / 1000)).toList ++
      '.' :: (padZeros 3 (toString (millis % 1000))).toList) := by
  have hcolon : ":".toList = [':'] := rfl
  have hpoint : ".".toList = ['.'] := rfl
  simp only [text, String.toList_append, toList_toString, List.append_assoc, hcolon, hpoint, List.cons_append,
    List.nil_append]

theorem read?_text (minutes : Nat) {millis : Nat} (h : millis / 1000 < 100) :
    read? (text minutes millis).toList = some ⟨minutes, millis / 1000, millis % 1000⟩ := by
  have hminutes := areDigits_toDigits minutes
  have hseconds : AreDigits (twoDigits (millis / 1000)).toList := areDigits_padZeros 2 _
  have hmillis := areDigits_padZeros 3 (millis % 1000)
  have htwo : (twoDigits (millis / 1000)).toList.length = 2 := length_padZeros Nat.two_pos h
  have hthree : (padZeros 3 (toString (millis % 1000))).toList.length = 3 :=
    length_padZeros (by decide) (Nat.mod_lt millis (by decide))
  have hvalue : digitsValue (twoDigits (millis / 1000)).toList = millis / 1000 := digitsValue_padZeros 2 _
  have hfirst := cutFirst_append (not_mem_of_areDigits ':' rfl hminutes) ((twoDigits (millis / 1000)).toList ++
    '.' :: (padZeros 3 (toString (millis % 1000))).toList)
  have hsecond := cutFirst_append (not_mem_of_areDigits '.' rfl hseconds)
    (padZeros 3 (toString (millis % 1000))).toList
  simp only [read?, toList_text, hfirst, hsecond, if_pos (And.intro (And.intro hminutes (And.intro hseconds hmillis))
    (And.intro htwo hthree)), Pad.digitsValue_toDigits, digitsValue_padZeros, hvalue]

/-- What is written behind the minutes has two digits before the point. -/
theorem padZeros_unitsText (millis : Nat) :
    padZeros 6 (unitsText 3 millis) =
      twoDigits (millis / 1000) ++ "." ++ padZeros 3 (toString (millis % 1000)) := by
  have hpoint : ".".toList = ['.'] := rfl
  have hthree : (padZeros 3 (toString (millis % 1000))).toList.length = 3 :=
    length_padZeros (by decide) (Nat.mod_lt millis (by decide))
  have hunits : (unitsText 3 millis).toList =
      Nat.toDigits 10 (millis / 1000) ++ '.' :: (padZeros 3 (toString (millis % 1000))).toList :=
    toList_unitsText (by decide) millis
  have hwidth : 6 - (unitsText 3 millis).length = 2 - (Nat.toDigits 10 (millis / 1000)).length := by
    rw [← String.length_toList, hunits, List.length_append, List.length_cons, hthree]
    omega
  rw [← String.toList_inj, padZeros, hwidth, String.toList_append, String.toList_ofList, hunits, String.toList_append,
    String.toList_append, hpoint, twoDigits, toList_padZeros 2]
  simp only [List.append_assoc, List.cons_append, List.nil_append]

/-! ### Lengths in units -/

variable {x : Float} {count : Nat}

theorem div_sixty_lt (hlt : count < 2 ^ 53 * perOne) : count / (60 * perOne) < 2 ^ 53 :=
  (Nat.div_le_div_left (Nat.le_mul_of_pos_left _ (by decide)) perOne_pos).trans_lt
    ((Nat.div_lt_iff_lt_mul perOne_pos).mpr hlt)

/-- The minutes that have gone by of a length. -/
theorem wholePart_div_sixty (hx : x.isFinite = true) (hcount : units x = count) (hlt : count < 2 ^ 53 * perOne) :
    (wholePart (x / 60.0)).isFinite = true ∧
      units (wholePart (x / 60.0)) = (count / (60 * perOne) * perOne : Nat) := by
  have hdiv := roundedRatio_div_perOne hx hcount hlt 60 (by decide)
  have hminutes := div_sixty_lt hlt
  have hratio : roundedRatio (count * perOne) (60 * perOne) = roundedRatio count 60 :=
    roundedRatio_mul_right _ _ perOne_pos
  have hquotient : roundedRatio count 60 < 2 ^ 53 * perOne := by
    rw [← Nat.div_lt_iff_lt_mul perOne_pos, hdiv]
    exact hminutes
  have hsmall : 2 ^ 53 * perOne < overflow := by
    rw [overflow_eq]
    refine Nat.mul_lt_mul_of_pos_right ?_ perOne_pos
    gcongr <;> decide
  obtain ⟨hfinite, hunits⟩ := isFinite_div hx rfl hcount sixty_exact.2 (Nat.mul_pos (by decide) perOne_pos)
    (by rw [hratio]; exact hquotient.trans hsmall)
  rw [hratio] at hunits
  have hwhole := toNat_toUInt64 hfinite hunits (hquotient.trans (Nat.mul_lt_mul_of_pos_right (by decide) perOne_pos))
  rw [hdiv] at hwhole
  have hpart : wholePart (x / 60.0) = (x / 60.0).toUInt64.toFloat := by
    refine if_pos ((lt_iff_units hfinite rfl).mpr ?_)
    rw [hunits, units_limit]
    exact Int.ofNat_lt.mpr hquotient
  rw [hpart, ← hwhole]
  exact toFloat_whole (hwhole ▸ hminutes)

theorem wholePart_mul_sixty (hx : x.isFinite = true) (hcount : units x = count) (hlt : count < 2 ^ 53 * perOne) :
    (wholePart (x / 60.0) * 60.0).isFinite = true ∧
      units (wholePart (x / 60.0) * 60.0) = (count / (60 * perOne) * (60 * perOne) : Nat) := by
  obtain ⟨hfinite, hunits⟩ := wholePart_div_sixty hx hcount hlt
  have hbelow := Nat.div_mul_le_self count (60 * perOne)
  have hproduct : units (wholePart (x / 60.0)) * (60 : Nat) = (count / (60 * perOne) * (60 * perOne) : Nat) := by
    rw [hunits]
    push_cast
    ring
  have hexact : rounded (count / (60 * perOne) * (60 * perOne)) = count / (60 * perOne) * (60 * perOne) := by
    rw [← Nat.mul_assoc] at hbelow ⊢
    exact rounded_count (Nat.lt_of_mul_lt_mul_right (hbelow.trans_lt hlt))
  have hminutes := isFinite_mul hfinite rfl sixty_exact.2 (by
    rw [hproduct, Int.natAbs_natCast, hexact]
    exact hbelow.trans_lt (count_lt_overflow hx hcount))
  rwa [hproduct, nearestUnits_natCast, hexact] at hminutes

/-- The seconds beyond the minutes, which have their bits. -/
theorem sub_minutes (hx : x.isFinite = true) (hcount : units x = count) (hlt : count < 2 ^ 53 * perOne) :
    (x - wholePart (x / 60.0) * 60.0).isFinite = true ∧
      units (x - wholePart (x / 60.0) * 60.0) = (count % (60 * perOne) : Nat) := by
  obtain ⟨hminutes, hunits⟩ := wholePart_mul_sixty hx hcount hlt
  have hdivision := Nat.div_add_mod' count (60 * perOne)
  have hrest : units x - units (wholePart (x / 60.0) * 60.0) = (count % (60 * perOne) : Nat) := by
    rw [hcount, hunits]
    omega
  have hdouble := rounded_mod_mul_perOne hx hcount hlt 60
  have hdifference : (x - wholePart (x / 60.0) * 60.0).isFinite = true := by
    refine isFinite_sub hx hminutes ?_
    rw [hrest, Int.natAbs_natCast, hdouble]
    exact (Nat.mod_le _ _).trans_lt (count_lt_overflow hx hcount)
  refine ⟨hdifference, ?_⟩
  rw [units_sub hx hminutes hdifference, hrest, nearestUnits_natCast, hdouble]

/-- A double from zero up is written without a minus, unless it is the zero with one. -/
theorem write_of_nonneg {style : FixedStyle} (hstyle : style.showsPlus = false) (hx : x.isFinite = true)
    (hcount : units x = count) (hzero : count = 0 → x = 0.0) :
    style.write x = padZeros style.width (unitsText style.places (placesOf style.places count)) := by
  obtain ⟨negative, significand, exponent, hparts, hleast, hunits⟩ := ofFloat_of_isFinite hx
  have hsign : negative = false := by
    rcases Nat.eq_zero_or_pos count with hnone | hsome
    · rw [hzero hnone] at hparts
      cases hparts
      rfl
    · cases negative with
      | false => rfl
      | true =>
          rw [if_pos rfl, hcount] at hunits
          omega
  subst hsign
  have hsize : Double.sizeOf significand exponent = count := by
    rw [hcount, if_neg Bool.false_ne_true] at hunits
    exact Int.ofNat.inj hunits.symm
  have hnone : style.sign (.finite false significand exponent) = "" := by
    rw [FixedStyle.sign, hstyle]
    rfl
  rw [FixedStyle.write]
  simp only [hparts, body_finite hleast, hsize, hnone, String.empty_append, String.length_empty, Nat.sub_zero]

/-- A length from zero up is written as its whole minutes and the milliseconds beyond them. -/
theorem durationText_eq {seconds : Float} (h : InRange seconds) (hcount : units seconds = count) :
    durationText seconds = text (count / (60 * perOne)) (placesOf 3 (count % (60 * perOne))) := by
  obtain ⟨hfinite, hlt⟩ := h
  rw [lt_iff_units hfinite rfl, hcount, units_limit] at hlt
  have hlt : count < 2 ^ 53 * perOne := by exact_mod_cast hlt
  obtain ⟨hshown, hunits⟩ := CueTime.shown_of_isFinite hfinite
  rw [CueTime.shown, if_pos hfinite] at hshown hunits
  rw [hcount, max_eq_left (Int.natCast_nonneg count)] at hunits
  have hnone : count = 0 → Scalar.atLeast 0.0 seconds = 0.0 := by
    rintro rfl
    refine if_neg fun hpositive => ?_
    rw [lt_iff_units rfl hfinite, hcount] at hpositive
    exact lt_irrefl _ hpositive
  rw [durationText]
  generalize Scalar.atLeast 0.0 seconds = total at hshown hunits hnone ⊢
  obtain ⟨hminutes, hminuteUnits⟩ := wholePart_div_sixty hshown hunits hlt
  obtain ⟨hproduct, hproductUnits⟩ := wholePart_mul_sixty hshown hunits hlt
  obtain ⟨hrest, hrestUnits⟩ := sub_minutes hshown hunits hlt
  have hword : count / (60 * perOne) * perOne < 2 ^ 64 * perOne :=
    Nat.mul_lt_mul_of_pos_right ((div_sixty_lt hlt).trans (by decide)) perOne_pos
  have hwhole := toNat_toUInt64 hminutes hminuteUnits hword
  rw [Nat.mul_div_cancel _ perOne_pos] at hwhole
  have hzero : count % (60 * perOne) = 0 → total - wholePart (total / 60.0) * 60.0 = 0.0 := by
    intro hmod
    rcases Nat.eq_zero_or_pos count with hnothing | hsome
    · rw [hnone hnothing]
      decide +kernel
    · refine sub_of_units_eq hshown hproduct ?_ (by rw [hunits]; exact_mod_cast hsome)
      have hdivision := Nat.div_add_mod' count (60 * perOne)
      rw [hunits, hproductUnits]
      omega
  rw [write_of_nonneg rfl hrest hrestUnits hzero, hwhole, text]
  dsimp only
  rw [padZeros_unitsText]
  simp only [String.append_assoc]

theorem placesOf_rest_le (count : Nat) : placesOf 3 (count % (60 * perOne)) ≤ 60000 := by
  have hrest := Nat.mod_lt count (Nat.mul_pos (by decide : 0 < 60) perOne_pos)
  have hbound : count % (60 * perOne) * 10 ^ 3 ≤ 60000 * perOne := by omega
  exact (roundHalfEven_mono hbound perOne).trans_eq (roundHalfEven_mul_self _ perOne_pos)

/-- The last half millisecond of a minute is rounded to a whole minute. -/
theorem placesOf_rest_lt_iff (rest : Nat) :
    placesOf 3 rest < 60000 ↔ (rest / perOne : Rat) < 60 - 1 / 2 / 1000 := by
  have hless : placesOf 3 rest < 60000 ↔ 2 * (rest * 10 ^ 3) + perOne < 2 * (60000 * perOne) + 60000 % 2 :=
    roundHalfEven_lt_iff perOne_pos
  have hcast : 2 * (rest * 10 ^ 3) + perOne < 2 * (60000 * perOne) + 60000 % 2 ↔
      (2 * (rest * 1000) + perOne : Rat) < 2 * (60000 * perOne) := by norm_cast
  rw [hless, hcast, div_lt_iff₀ perOne_pos_rat]
  constructor <;> intro h <;> linarith

/-- The text of a length from zero up is read back at most half a millisecond away from it, with the
minutes that have gone by. Its seconds are less than sixty just when it is not in the last half
millisecond of a minute; there they are sixty. -/
theorem durationText_near {seconds : Float} (h : InRange seconds) (hstart : 0.0 ≤ seconds) :
    ∃ shown, read? (durationText seconds).toList = some shown ∧
      |shown.total - value seconds| ≤ 1 / 2 / 1000 ∧
      ((shown.minutes * 60 : Rat) ≤ value seconds ∧ value seconds < (shown.minutes + 1) * 60) ∧
      (shown.seconds < 60 ↔ value seconds < (shown.minutes + 1) * 60 - 1 / 2 / 1000) ∧
      (60 ≤ shown.seconds → shown = ⟨shown.minutes, 60, 0⟩) := by
  obtain ⟨count, hcount⟩ : ∃ count : Nat, units seconds = count := by
    refine Int.eq_ofNat_of_zero_le ?_
    have hunits := (le_iff_units rfl h.1).mp hstart
    rwa [units_null] at hunits
  have hmost := placesOf_rest_le count
  have hnear := placesOf_near 3 (count % (60 * perOne))
  have hless := placesOf_rest_lt_iff (count % (60 * perOne))
  have hdivision := Nat.div_add_mod' count (60 * perOne)
  have hrest := Nat.mod_lt count (Nat.mul_pos (by decide : 0 < 60) perOne_pos)
  rw [durationText_eq h hcount]
  generalize count / (60 * perOne) = minutes at hdivision ⊢
  generalize count % (60 * perOne) = rest at hmost hnear hless hdivision hrest ⊢
  generalize placesOf 3 rest = millis at hmost hnear hless ⊢
  have hone := perOne_pos_rat
  have hvalue : value seconds = minutes * 60 + rest / perOne := by
    rw [value, hcount, ← hdivision]
    push_cast
    field_simp
  have hbeyond : (rest / perOne : Rat) < 60 := by
    rw [div_lt_iff₀ hone]
    exact_mod_cast hrest
  have hnonneg : (0 : Rat) ≤ rest / perOne := by positivity
  refine ⟨_, read?_text minutes (by omega), ?_, ?_, ?_, ?_⟩
  · have hmillis : ((millis / 1000 : Nat) : Rat) + (millis % 1000 : Nat) / 1000 = millis / 10 ^ 3 := by
      have hsplit : ((millis / 1000 * 1000 + millis % 1000 : Nat) : Rat) = millis := by rw [Nat.div_add_mod']
      push_cast at hsplit
      linarith
    have hdifference : Shown.total ⟨minutes, millis / 1000, millis % 1000⟩ - value seconds =
        millis / 10 ^ 3 - rest / perOne := by
      rw [Shown.total, hvalue]
      linarith
    rw [hdifference]
    exact hnear.trans_eq (by norm_num)
  · rw [hvalue]
    constructor <;> linarith
  · have hseconds : millis / 1000 < 60 ↔ millis < 60000 := by omega
    rw [hvalue, hseconds, hless]
    constructor <;> intro h <;> linarith
  · intro (hsixty : 60 ≤ millis / 1000)
    have hseconds : millis / 1000 = 60 := by omega
    have hmillis : millis % 1000 = 0 := by omega
    simp only [hseconds, hmillis]

/-- A length within a minute, and one in the last half millisecond of a minute. -/
theorem durationText_near_atMinute :
    InRange 61.5 ∧ (0.0 : Float) ≤ 61.5 ∧ InRange 59.9996 ∧ (0.0 : Float) ≤ 59.9996 ∧
      (∃ shown, read? (durationText 61.5).toList = some shown ∧ |shown.total - value 61.5| ≤ 1 / 2 / 1000) ∧
      ∃ shown, read? (durationText 59.9996).toList = some shown ∧ |shown.total - value 59.9996| ≤ 1 / 2 / 1000 := by
  have hfirst : InRange 61.5 ∧ (0.0 : Float) ≤ 61.5 := by decide +kernel
  have hsecond : InRange 59.9996 ∧ (0.0 : Float) ≤ 59.9996 := by decide +kernel
  obtain ⟨shown, hread, hnear, -⟩ := durationText_near hfirst.1 hfirst.2
  obtain ⟨other, hread', hnear', -⟩ := durationText_near hsecond.1 hsecond.2
  exact ⟨hfirst.1, hfirst.2, hsecond.1, hsecond.2, ⟨shown, hread, hnear⟩, other, hread', hnear'⟩

/-- Not every length is shown with less than sixty seconds. -/
theorem durationText_sixty :
    InRange 59.9996 ∧ (0.0 : Float) ≤ 59.9996 ∧ read? (durationText 59.9996).toList = some ⟨0, 60, 0⟩ := by
  decide +kernel

end Duration

end Segue
