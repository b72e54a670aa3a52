import Segue.Json.Writer
import Segue.Proofs.Double.Units
import Segue.Proofs.Json.Figures

/-!
Doubles as they are written. Main statement: what is written for a double is a number, or the word
for nothing when it is not finite, so it is always read back as something.
-/

namespace Segue

namespace Numeral

theorem finite_of_isFinite {x : Float} (h : x.isFinite = true) :
    ∃ negative significand exponent, Parts.ofFloat x = .finite negative significand exponent ∧
      significand < 2 ^ 53 := by
  have hfield : x.toBits.toNat / Nat.pow 2 52 % Nat.pow 2 11 ≠ 2047 := by
    intro hfield
    have hunpacked :
        (@Float.Model.UnpackedFloat.unpackExponent Float.Model.Format.binary64 x.toBits.toBitVec).toNat = 2047 :=
      (Double.toNat_unpackExponent x.toBits.toBitVec).trans hfield
    have hinfinite : x.isFinite = false := Double.isFinite_unpack_of_field hunpacked
    rw [h] at hinfinite
    cases hinfinite
  have hfraction : x.toBits.toNat % Nat.pow 2 52 < 2 ^ 52 := Nat.mod_lt _ (Nat.two_pow_pos 52)
  unfold Parts.ofFloat
  dsimp only
  rw [if_neg hfield]
  split
  · exact ⟨_, _, _, rfl, by omega⟩
  · exact ⟨_, _, _, rfl, by have : Nat.pow 2 52 = 2 ^ 52 := rfl; omega⟩

theorem pow_le_of_digitCount {n : Nat} (h : 1 < digitCount n) : 10 ^ (digitCount n - 1) ≤ n := by
  have hcount : digitCount n = (Nat.toDigits 10 n).length := by
    rw [digitCount, ← String.length_toList, toList_toString]
  refine Nat.le_of_not_lt fun hlt => ?_
  have hle := (Nat.length_toDigits_le_iff (k := digitCount n - 1) (by decide) (by omega)).mpr hlt
  omega

theorem digitCount_le {n k : Nat} (hk : 0 < k) (h : n < 10 ^ k) : digitCount n ≤ k := by
  rw [digitCount, ← String.length_toList, toList_toString]
  exact (Nat.length_toDigits_le_iff (by decide) hk).mpr h

theorem digitCount_pos (n : Nat) : 0 < digitCount n := by
  rw [digitCount, ← String.length_toList, toList_toString]
  exact Nat.length_toDigits_pos

variable {interval : RoundingInterval} {tie : Tie}

theorem onGrid?_pos {exponent : Int} {digits : Nat} (h : interval.onGrid? tie exponent = some digits) :
    0 < digits := by
  unfold RoundingInterval.onGrid? at h
  dsimp only at h
  split at h
  · rename_i hbelow _
    cases h
    split
    · simpa using (Bool.and_eq_true_iff.mp hbelow).2
    · exact Nat.succ_pos _
  · rename_i hbelow _
    cases h
    simpa using (Bool.and_eq_true_iff.mp hbelow).2
  · cases h
    exact Nat.succ_pos _
  · cases h

/-- When no grid has a point that reads back, neither has the last of them. -/
theorem coarsest_cases (exponent : Int) (count : Nat) :
    0 < (interval.coarsest tie exponent count).digits ∨
      (interval.coarsest tie exponent count).exponent = exponent - count ∧
        (count ≠ 0 → interval.onGrid? tie (exponent - count + 1) = none) := by
  induction count generalizing exponent with
  | zero => exact .inr ⟨(Int.sub_zero exponent).symm, fun h => absurd rfl h⟩
  | succ count ih =>
      rw [RoundingInterval.coarsest]
      cases hgrid : interval.onGrid? tie exponent with
      | some digits => exact .inl (onGrid?_pos hgrid)
      | none =>
          dsimp only
          rcases ih (exponent - 1) with hpos | ⟨hexponent, hnone⟩
          · exact .inl hpos
          · refine .inr ⟨by rw [hexponent]; omega, fun _ => ?_⟩
            rcases Nat.eq_zero_or_pos count with rfl | hcount
            · rw [show exponent - ((0 + 1 : Nat) : Int) + 1 = exponent by omega]
              exact hgrid
            · have hlast := hnone (by omega)
              rw [show exponent - ((count + 1 : Nat) : Int) + 1 = exponent - 1 - count + 1 by omega]
              exact hlast

theorem gridSides_natCast (one step n scaled : Nat) :
    gridSides one (step : Int) n scaled = (n * 10 ^ step * one, scaled) := by
  unfold gridSides
  rw [if_pos (Int.natCast_nonneg step), Int.toNat_natCast]
  rfl

/-- The grid point next above a large double reads back when the grid is finer than half of what
rounds to it. -/
theorem holds_ofParts {significand exponent step : Nat} (hlarge : 2 ≤ exponent)
    (hstep : 10 ^ step < 2 ^ (exponent - 2)) :
    (RoundingInterval.ofParts significand exponent).holds step
      (4 * significand * 2 ^ (exponent - 2) / 10 ^ step + 1) = true := by
  have hexponent : (2 : Int) ≤ exponent := by omega
  have hunit : Nat.pow 2 ((exponent : Int) - 2).toNat = 2 ^ (exponent - 2) :=
    congrArg (2 ^ ·) (by omega : ((exponent : Int) - 2).toNat = exponent - 2)
  have hpoint := Nat.lt_mul_div_succ (4 * significand * 2 ^ (exponent - 2))
    (Nat.pow_pos (n := step) (by decide : 0 < 10))
  have hbelow := Nat.mul_div_le (4 * significand * 2 ^ (exponent - 2)) (10 ^ step)
  generalize hpointEq : 4 * significand * 2 ^ (exponent - 2) / 10 ^ step = below at hpoint hbelow ⊢
  have hlow : ∀ less, (4 * significand - less) * 2 ^ (exponent - 2) < (below + 1) * 10 ^ step := by
    intro less
    calc (4 * significand - less) * 2 ^ (exponent - 2)
        ≤ 4 * significand * 2 ^ (exponent - 2) := Nat.mul_le_mul_right _ (Nat.sub_le _ _)
      _ < 10 ^ step * (below + 1) := hpoint
      _ = (below + 1) * 10 ^ step := Nat.mul_comm _ _
  have hhigh : (below + 1) * 10 ^ step < (4 * significand + 2) * 2 ^ (exponent - 2) := by
    calc (below + 1) * 10 ^ step
        = 10 ^ step * below + 10 ^ step := by ring
      _ < 4 * significand * 2 ^ (exponent - 2) + 2 ^ (exponent - 2) := Nat.add_lt_add_of_le_of_lt hbelow hstep
      _ ≤ (4 * significand + 2) * 2 ^ (exponent - 2) := by
          rw [Nat.add_mul]
          omega
  unfold RoundingInterval.holds RoundingInterval.ofParts
  rw [if_pos hexponent, hunit]
  dsimp only
  rw [gridSides_natCast, gridSides_natCast, Nat.mul_one]
  have hlow' := hlow (if significand = Nat.pow 2 52 ∧ -1074 < (exponent : Int) then 1 else 2)
  split
  · simpa using ⟨Nat.le_of_lt hlow', Nat.le_of_lt hhigh⟩
  · simpa using ⟨hlow', hhigh⟩

theorem onGrid?_ofParts {significand exponent step : Nat} (hlarge : 2 ≤ exponent)
    (hstep : 10 ^ step < 2 ^ (exponent - 2)) :
    (RoundingInterval.ofParts significand exponent).onGrid? tie step ≠ none := by
  have hexponent : (2 : Int) ≤ exponent := by omega
  have hunit : Nat.pow 2 ((exponent : Int) - 2).toNat = 2 ^ (exponent - 2) :=
    congrArg (2 ^ ·) (by omega : ((exponent : Int) - 2).toNat = exponent - 2)
  have hholds : (RoundingInterval.ofParts significand exponent).holds step
      (4 * significand * 2 ^ (exponent - 2) / 10 ^ step + 1) = true := holds_ofParts hlarge hstep
  have hcentre : (RoundingInterval.ofParts significand exponent).centre = 4 * significand * 2 ^ (exponent - 2) := by
    unfold RoundingInterval.ofParts
    rw [if_pos hexponent, hunit]
  have hone : (RoundingInterval.ofParts significand exponent).one = 1 := by
    unfold RoundingInterval.ofParts
    rw [if_pos hexponent]
  unfold RoundingInterval.onGrid?
  rw [hcentre, hone, gridSides_natCast]
  dsimp only
  rw [Nat.one_mul, Nat.mul_one, hholds]
  split <;> simp_all

/-- A number of so many digits is a large double, and the twentieth grid is fine enough for it. -/
theorem grid_of_digitCount {significand exponent : Nat} (h : significand < 2 ^ 53)
    (hcount : 20 ≤ digitCount (significand * 2 ^ exponent)) :
    2 ≤ exponent ∧ 10 ^ (digitCount (significand * 2 ^ exponent) - 19) < 2 ^ (exponent - 2) := by
  have hsize := pow_le_of_digitCount (n := significand * 2 ^ exponent) (by omega)
  generalize digitCount (significand * 2 ^ exponent) = count at hcount hsize ⊢
  obtain ⟨step, rfl⟩ : ∃ step, count = step + 19 := ⟨count - 19, by omega⟩
  have hpow : 10 ^ (step + 19 - 1) = 10 ^ step * 10 ^ 18 := by
    rw [← Nat.pow_add]
    rfl
  have hlt : 10 ^ step * 10 ^ 18 < 2 ^ 53 * 2 ^ exponent :=
    Nat.lt_of_le_of_lt (hpow ▸ hsize) (Nat.mul_lt_mul_of_pos_right h (Nat.two_pow_pos exponent))
  have hten : 10 ≤ 10 ^ step := Nat.le_self_pow (by omega) 10
  have hlarge : 2 ≤ exponent := by
    refine Nat.le_of_not_lt fun hsmall => ?_
    have htwo : 2 ^ exponent ≤ 2 ^ 1 := Nat.pow_le_pow_right (by decide) (by omega)
    omega
  refine ⟨hlarge, ?_⟩
  have hsplit : 2 ^ exponent = 4 * 2 ^ (exponent - 2) := by
    conv_lhs => rw [← Nat.sub_add_cancel hlarge, Nat.pow_add, Nat.mul_comm]
  rw [hsplit] at hlt
  rw [Nat.add_sub_cancel]
  omega

theorem leadingExponent_natCast (significand exponent : Nat) :
    leadingExponent significand exponent = digitCount (significand * 2 ^ exponent) := by
  have hone : digitCount 1 = 1 := by
    rw [digitCount, ← String.length_toList, toList_toString]
    rfl
  unfold leadingExponent sizeFraction
  rw [if_pos (Int.natCast_nonneg exponent), Int.toNat_natCast]
  dsimp only
  rw [hone]
  change (digitCount (significand * 2 ^ exponent) : Int) - 1 + 1 = _
  omega

theorem leadingExponent_of_neg {significand : Nat} (h : significand < 2 ^ 53) {exponent : Int} (hpart : exponent < 0) :
    leadingExponent significand exponent ≤ 16 := by
  have habove : digitCount significand ≤ 16 := digitCount_le (by decide) (Nat.lt_trans h (by decide))
  have hbelow := digitCount_pos (Nat.pow 2 (-exponent).toNat)
  unfold leadingExponent sizeFraction
  rw [if_neg (Int.not_le.mpr hpart)]
  dsimp only
  omega

/-- A decimal without digits is found for small numbers only, if at all. -/
theorem shortest_cases {significand : Nat} (h : significand < 2 ^ 53) (exponent : Int) :
    0 < (shortest tie significand exponent).digits ∨ (shortest tie significand exponent).exponent < 0 := by
  unfold shortest
  have hcases := @coarsest_cases (.ofParts significand exponent) tie (leadingExponent significand exponent) 20
  rcases hcases with hpos | ⟨hexponent, hnone⟩
  · exact .inl hpos
  refine .inr ?_
  rw [hexponent]
  refine Int.not_le.mp fun hlead => ?_
  rcases lt_or_ge exponent 0 with hpart | hwhole
  · have hsmall := leadingExponent_of_neg h hpart
    omega
  · obtain ⟨exponent, rfl⟩ := Int.eq_ofNat_of_zero_le hwhole
    rw [leadingExponent_natCast] at hlead hnone
    have hcount : 20 ≤ digitCount (significand * 2 ^ exponent) := by omega
    obtain ⟨hlarge, hstep⟩ := grid_of_digitCount h hcount
    refine @onGrid?_ofParts tie significand exponent _ hlarge hstep ?_
    rw [← hnone (by decide)]
    congr 1
    omega

end Numeral

namespace Json

open Numeral (zeros positional scientific)

variable {digits : List Char}

theorem AreDigits.append {more : List Char} (h : AreDigits digits) (hmore : ∀ c ∈ more, c.isDigit = true) :
    AreDigits (digits ++ more) :=
  ⟨List.append_ne_nil_of_left_ne_nil h.1 more, fun c hc => (List.mem_append.mp hc).elim (h.2 c) (hmore c)⟩

theorem isDigit_of_mem_zeros {count : Nat} {c : Char} (h : c ∈ (zeros count).toList) : c.isDigit = true := by
  rw [zeros, String.toList_ofList] at h
  rw [List.eq_of_mem_replicate h]
  rfl

def Figure.ofPlaces (whole places : List Char) (hwhole : IsWhole whole) (hplaces : AreDigits places) : Figure where
  whole
  places := some places
  isWhole := hwhole
  arePlaces _ hsome := Option.some.inj hsome ▸ hplaces
  areExponent := areDigits_none

theorem Figure.text_ofPlaces {whole places : List Char} (hwhole : IsWhole whole) (hplaces : AreDigits places) :
    (Figure.ofPlaces whole places hwhole hplaces).text = whole ++ '.' :: places := by
  rw [Figure.text]
  change whole ++ ('.' :: places ++ []) = _
  rw [List.append_nil]

theorem IsWhole.take {cut : Nat} (h : IsWhole digits) (hcut : 0 < cut) : IsWhole (digits.take cut) := by
  obtain ⟨cut, rfl⟩ : ∃ less, cut = less + 1 := ⟨cut - 1, by omega⟩
  cases h with
  | zero =>
      rw [List.take_of_length_le (by simp)]
      exact .zero
  | digits hfirst hdigits =>
      exact .digits hfirst ⟨List.cons_ne_nil _ _, fun c hc => hdigits.2 c (List.mem_of_mem_take (i := cut + 1) hc)⟩

theorem AreDigits.drop {cut : Nat} (h : AreDigits digits) (hcut : cut < digits.length) :
    AreDigits (digits.drop cut) := by
  refine ⟨?_, fun c hc => h.2 c (List.mem_of_mem_drop hc)⟩
  rw [Ne, List.drop_eq_nil_iff]
  omega

theorem AreDigits.behind_zeros (h : AreDigits digits) (count : Nat) : AreDigits ((zeros count).toList ++ digits) := by
  refine ⟨List.append_ne_nil_of_right_ne_nil _ h.1, fun c hc => ?_⟩
  exact (List.mem_append.mp hc).elim isDigit_of_mem_zeros (h.2 c)

/-- A zero cannot be followed by more of them. -/
theorem isWhole_before_zeros {n count : Nat} (h : 0 < n ∨ count = 0) :
    IsWhole (Nat.toDigits 10 n ++ (zeros count).toList) := by
  rcases h with hpos | rfl
  · obtain ⟨first, digits, hsplit, hfirst⟩ := exists_toDigits_eq_cons hpos
    have hzeros : ∀ c ∈ (zeros count).toList, c.isDigit = true := fun c => isDigit_of_mem_zeros
    have hall := (areDigits_toDigits n).append hzeros
    rw [hsplit] at hall ⊢
    exact .digits hfirst hall
  · rw [zeros, String.toList_ofList, List.replicate_zero, List.append_nil]
    exact isWhole_toDigits n

/-- Digits that are written out, with a point among them or behind them. -/
theorem exists_figure_positional {n : Nat} {exponent : Int} (h : 0 < n ∨ exponent < 0 ∨ exponent = 0) :
    ∃ figure : Figure, (positional true (toString n) exponent).toList = figure.text := by
  have hpoint : ".0".toList = ['.', '0'] ∧ ".".toList = ['.'] ∧ "0.".toList = ['0', '.'] := ⟨rfl, rfl, rfl⟩
  have hlength : (toString n).length = (Nat.toDigits 10 n).length := by
    rw [← String.length_toList, toList_toString]
  unfold positional
  split
  · rename_i hwhole
    have hfront : IsWhole (Nat.toDigits 10 n ++ (zeros exponent.toNat).toList) := isWhole_before_zeros (by omega)
    have hzero : AreDigits ['0'] := ⟨List.cons_ne_nil _ _, by simp⟩
    refine ⟨.ofPlaces _ _ hfront hzero, ?_⟩
    rw [Figure.text_ofPlaces, if_pos rfl]
    simp only [String.toList_append, toList_toString, hpoint.1]
  · dsimp only
    rw [hlength]
    split
    · rename_i hplaces
      have hfront : IsWhole ((Nat.toDigits 10 n).take ((Nat.toDigits 10 n).length - (-exponent).toNat)) :=
        (isWhole_toDigits n).take (by omega)
      have hbehind : AreDigits ((Nat.toDigits 10 n).drop ((Nat.toDigits 10 n).length - (-exponent).toNat)) :=
        (areDigits_toDigits n).drop (by omega)
      refine ⟨.ofPlaces _ _ hfront hbehind, ?_⟩
      rw [Figure.text_ofPlaces]
      simp only [String.toList_append, String.toList_ofList, toList_toString, hpoint.2.1, List.append_assoc,
        List.singleton_append]
    · have hbehind := (areDigits_toDigits n).behind_zeros ((-exponent).toNat - (Nat.toDigits 10 n).length)
      refine ⟨.ofPlaces _ _ .zero hbehind, ?_⟩
      rw [Figure.text_ofPlaces]
      simp only [String.toList_append, toList_toString, hpoint.2.2, List.cons_append, List.nil_append]

/-- Digits with an exponent. -/
theorem exists_figure_scientific (n : Nat) (lead : Int) :
    ∃ figure : Figure, (scientific (toString n) lead).toList = figure.text := by
  have hdigits := areDigits_toDigits n
  have hexponent := areDigits_toDigits lead.natAbs
  have hsign : ((if lead < 0 then "-" else "+") : String).toList = [if decide (lead < 0) then '-' else '+'] := by
    by_cases h : lead < 0 <;> simp [h]
  have hone : ∀ {first : Char}, first.isDigit = true → IsWhole [first] := by
    intro first hfirst
    by_cases hzero : first = '0'
    · rw [hzero]
      exact .zero
    · exact .digits hzero ⟨List.cons_ne_nil _ _, by simpa using hfirst⟩
  unfold scientific
  dsimp only
  rw [String.toList_append, String.toList_append, String.toList_append, hsign, toList_toString, toList_toString]
  generalize Nat.toDigits 10 n = digits at hdigits
  match digits, hdigits with
  | [], hdigits => exact absurd rfl hdigits.1
  | [first], hdigits =>
      refine ⟨{
        whole := [first]
        exponent := some (decide (lead < 0), Nat.toDigits 10 lead.natAbs)
        isWhole := hone (hdigits.2 first List.mem_cons_self)
        arePlaces := by simp
        areExponent := by simpa using hexponent }, ?_⟩
      simp [Figure.text, Figure.placesText, Figure.exponentText]
  | first :: second :: rest, hdigits =>
      refine ⟨{
        whole := [first]
        places := some (second :: rest)
        exponent := some (decide (lead < 0), Nat.toDigits 10 lead.natAbs)
        isWhole := hone (hdigits.2 first List.mem_cons_self)
        arePlaces := by
          rintro _ ⟨⟩
          exact ⟨List.cons_ne_nil _ _, fun c hc => hdigits.2 c (List.mem_cons_of_mem _ hc)⟩
        areExponent := by simpa using hexponent }, ?_⟩
      simp [Figure.text, Figure.placesText, Figure.exponentText]

/-- What is written for the size of a double. -/
theorem exists_figure_size {significand : Nat} (h : significand < 2 ^ 53) (exponent : Int) :
    ∃ figure : Figure, (numberLayout.size significand exponent).toList = figure.text := by
  unfold Numeral.Layout.size
  split
  · exact exists_figure_positional (n := 0) (.inr (.inr rfl))
  · dsimp only
    split
    · exact exists_figure_positional ((Numeral.shortest_cases h exponent).imp_right .inl)
    · exact exists_figure_scientific _ _

/-- **Doubles.** What is written for a finite double is a number. -/
theorem exists_figure_floatText {x : Float} (h : x.isFinite = true) :
    ∃ (figure : Figure) (negative : Bool), (floatText x).toList = figure.signed negative := by
  obtain ⟨negative, significand, exponent, hparts, hsignificand⟩ := Numeral.finite_of_isFinite h
  obtain ⟨figure, hfigure⟩ := exists_figure_size hsignificand exponent
  refine ⟨figure, negative, ?_⟩
  rw [floatText, if_pos h, Numeral.Layout.write, hparts]
  dsimp only
  rw [String.toList_append, hfigure]
  cases negative <;> rfl

end Json

end Segue
