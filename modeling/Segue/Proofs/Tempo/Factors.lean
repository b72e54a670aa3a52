import Mathlib.Algebra.BigOperators.Group.List.Basic
import Mathlib.Tactic.NormNum
import Segue.Proofs.Double.Exact
import Segue.Tempo

/-!
The stretches that give a rate. Main statement: for every positive rate the search for them ends,
each of them is one that a single stretch can take, and together they give that rate without
rounding, but for what is left out because it is nearly one.
-/

namespace Segue.Tempo

open Double

/-- Dividing by a factor for as long as the rest is out of bounds, with the factors taken out and
the last rest. -/
inductive TakesOut (factor : Float) (outOfBounds : Float → Bool) : Float → List Float → Float → Prop
  | done {rest : Float} (h : outOfBounds rest = false) : TakesOut factor outOfBounds rest [] rest
  | more {rest last : Float} {found : List Float} (h : outOfBounds rest = true)
      (hmore : TakesOut factor outOfBounds (rest / factor) found last) :
      TakesOut factor outOfBounds rest (factor :: found) last

/-- The rest beside other factors, which is left out when it is nearly one. -/
def withRest {α : Type} [Scalar α] (found : List α) (rest : α) : List α :=
  if found.isEmpty || decide (tolerance < Scalar.magnitude (rest - 1)) then found ++ [rest] else found

/-- The search for the factors of a rate comes to an end with these. -/
inductive Decomposes (rate : Float) : List Float → Prop
  | none (h : ¬ (rate.isFinite = true ∧ 0 < rate)) : Decomposes rate []
  | some {fast slow : List Float} {middle last : Float} (h : rate.isFinite = true ∧ 0 < rate)
      (hfast : TakesOut 2 (fun rest => decide (2 < rest)) rate fast middle)
      (hslow : TakesOut 0.5 (fun rest => decide (rest < 0.5)) middle slow last) :
      Decomposes rate (withRest (fast ++ slow) last)

/-- What the factors of a rate are like. -/
structure AreFactors (rate : Float) (found : List Float) : Prop where
  ne_nil : found ≠ []
  bounded : ∀ factor ∈ found, 0.5 ≤ factor ∧ factor ≤ 2
  fast : 2 < rate → ∀ factor ∈ found.dropLast, factor = 2
  slow : rate < 0.5 → ∀ factor ∈ found.dropLast, factor = 0.5
  single : 0.5 ≤ rate → rate ≤ 2 → found = [rate]
  product : (found.map value).prod = value rate ∨
    ∃ rest, |value rest - 1| ≤ 1 / 10 ^ 6 ∧ (found.map value).prod * value rest = value rate ∧
      |value rate - (found.map value).prod| ≤ 1 / 10 ^ 6 * (found.map value).prod

theorem TakesOut.takeOut_eq {factor rest last : Float} {outOfBounds : Float → Bool} {found : List Float}
    (h : TakesOut factor outOfBounds rest found last) {steps : Nat} (hsteps : found.length ≤ steps) :
    takeOut factor outOfBounds steps rest = (found, last) := by
  induction h generalizing steps with
  | done h =>
      cases steps with
      | zero => rfl
      | succ steps =>
          rw [takeOut, h]
          rfl
  | more h _ ih =>
      obtain ⟨steps, rfl⟩ := Nat.exists_eq_add_one_of_ne_zero (Nat.ne_of_gt ((Nat.succ_pos _).trans_le hsteps))
      rw [takeOut, if_pos h, ih (Nat.le_of_succ_le_succ hsteps)]

/-- The search ends when every step brings the rest nearer to its bounds and takes the factor out
exactly. -/
theorem exists_takesOut {factor : Float} {outOfBounds : Float → Bool} {Within : Nat → Float → Prop}
    (hstep : ∀ steps rest, Within steps rest → outOfBounds rest = true →
      ∃ fewer, steps = fewer + 1 ∧ Within fewer (rest / factor) ∧ value (rest / factor) * value factor = value rest)
    (steps : Nat) {rest : Float} (h : Within steps rest) :
    ∃ count last fewer, TakesOut factor outOfBounds rest (List.replicate count factor) last ∧ count ≤ steps ∧
      Within fewer last ∧ outOfBounds last = false ∧ value last * value factor ^ count = value rest := by
  induction steps generalizing rest with
  | zero =>
      cases hbounds : outOfBounds rest with
      | false => exact ⟨0, rest, 0, .done hbounds, Nat.le_refl 0, h, hbounds, by simp⟩
      | true =>
          obtain ⟨fewer, hzero, -⟩ := hstep 0 rest h hbounds
          cases hzero
  | succ steps ih =>
      cases hbounds : outOfBounds rest with
      | false => exact ⟨0, rest, _, .done hbounds, Nat.zero_le _, h, hbounds, by simp⟩
      | true =>
          obtain ⟨fewer, hfewer, hwithin, hvalue⟩ := hstep _ rest h hbounds
          obtain rfl := Nat.succ.inj hfewer
          obtain ⟨count, last, least, hmore, hcount, hlast, hdone, hproduct⟩ := ih hwithin
          refine ⟨count + 1, last, least, .more hbounds hmore, Nat.succ_le_succ hcount, hlast, hdone, ?_⟩
          rw [pow_succ, ← mul_assoc, hproduct, hvalue]

theorem value_tolerance_le : (tolerance : Float).isFinite = true ∧ value tolerance ≤ 1 / 10 ^ 6 := by
  have hbits : (tolerance : Float) = Float.ofBits 0x3EB0C6F7A0B5ED8D := by decide +kernel
  have hfinite : (Float.ofBits 0x3EB0C6F7A0B5ED8D).isFinite = true := by decide +kernel
  have hunits : bitUnits (Float.ofBits 0x3EB0C6F7A0B5ED8D) * 10 ^ 6 ≤ perOne := by decide +kernel
  rw [hbits]
  refine ⟨hfinite, ?_⟩
  rw [value, units_eq_bitUnits hfinite, div_le_div_iff₀ perOne_pos_rat (by norm_num), one_mul]
  exact_mod_cast hunits

variable {rate last : Float}

/-- What is left out is nearly one. -/
theorem abs_value_sub_one_le (hlast : last.isFinite = true) (hlow : 1 / 2 ≤ value last) (hhigh : value last ≤ 2)
    (h : ¬ tolerance < Scalar.magnitude (last - 1)) : |value last - 1| ≤ 1 / 10 ^ 6 := by
  obtain ⟨hdifference, hvalue⟩ := sub_one hlast hlow hhigh
  obtain ⟨hmagnitude, habs⟩ := value_magnitude hdifference
  obtain ⟨htolerance, hle⟩ := value_tolerance_le
  rw [lt_iff_value htolerance hmagnitude, habs, hvalue] at h
  exact (le_of_not_gt h).trans hle

theorem takesOut_two (hrate : rate.isFinite = true) (h : 2 < value rate) :
    ∃ count last, TakesOut 2 (fun rest => decide (2 < rest)) rate (List.replicate count 2) last ∧
      count ≤ maxSteps ∧ last.isFinite = true ∧ 1 < value last ∧ value last ≤ 2 ∧
      value last * 2 ^ count = value rate := by
  have hstep : ∀ steps rest, (rest.isFinite = true ∧ 1 < value rest ∧ value rest ≤ 2 ^ (steps + 1)) →
      decide (2 < rest) = true → ∃ fewer, steps = fewer + 1 ∧
        ((rest / 2).isFinite = true ∧ 1 < value (rest / 2) ∧ value (rest / 2) ≤ 2 ^ (fewer + 1)) ∧
          value (rest / 2) * value 2 = value rest := by
    rintro steps rest ⟨hrest, -, hle⟩ hbounds
    have hlt : 2 < value rest := by
      rw [← two_exact.2]
      exact (lt_iff_value two_exact.1 hrest).mp (of_decide_eq_true hbounds)
    obtain ⟨hhalf, hvalue⟩ := div_two hrest hlt
    cases steps with
    | zero =>
        rw [zero_add, pow_one] at hle
        linarith
    | succ fewer =>
        rw [pow_succ] at hle
        exact ⟨fewer, rfl, ⟨hhalf, by linarith, by linarith⟩, by rw [two_exact.2, hvalue]⟩
  obtain ⟨count, last, -, htakes, hcount, ⟨hlast, hlow, -⟩, hbounds, hproduct⟩ :=
    exists_takesOut hstep 1023 ⟨hrate, by linarith, (value_lt hrate (by decide)).le⟩
  rw [two_exact.2] at hproduct
  refine ⟨count, last, htakes, hcount.trans (by decide), hlast, hlow, ?_, hproduct⟩
  rw [← two_exact.2]
  exact le_of_not_gt ((lt_iff_value two_exact.1 hlast).not.mp (of_decide_eq_false hbounds))

theorem takesOut_half (hrate : rate.isFinite = true) (hpositive : 0 < value rate) (h : value rate < 1 / 2) :
    ∃ count last, TakesOut 0.5 (fun rest => decide (rest < 0.5)) rate (List.replicate count 0.5) last ∧
      count ≤ maxSteps ∧ last.isFinite = true ∧ 1 / 2 ≤ value last ∧ value last < 1 ∧
      value last * (1 / 2) ^ count = value rate := by
  have hstep : ∀ steps rest,
      (rest.isFinite = true ∧ 0 < value rest ∧ value rest < 1 ∧ 1 ≤ value rest * 2 ^ (steps + 1)) →
        decide (rest < 0.5) = true → ∃ fewer, steps = fewer + 1 ∧
          ((rest / 0.5).isFinite = true ∧ 0 < value (rest / 0.5) ∧ value (rest / 0.5) < 1 ∧
            1 ≤ value (rest / 0.5) * 2 ^ (fewer + 1)) ∧ value (rest / 0.5) * value 0.5 = value rest := by
    rintro steps rest ⟨hrest, hsome, -, hle⟩ hbounds
    have hlt : value rest < 1 / 2 := by
      rw [← value_half]
      exact (lt_iff_value hrest half_exact.1).mp (of_decide_eq_true hbounds)
    obtain ⟨htwice, hvalue⟩ := div_half hrest hsome hlt
    cases steps with
    | zero =>
        rw [zero_add, pow_one] at hle
        linarith
    | succ fewer =>
        rw [pow_succ, ← hvalue] at hle
        refine ⟨fewer, rfl, ⟨htwice, by linarith, by linarith, ?_⟩, by rw [value_half, hvalue]⟩
        calc 1 ≤ value (rest / 0.5) * (1 / 2) * (2 ^ (fewer + 1) * 2) := hle
          _ = value (rest / 0.5) * 2 ^ (fewer + 1) := by ring
  obtain ⟨count, last, -, htakes, hcount, ⟨hlast, -, hhigh, -⟩, hbounds, hproduct⟩ :=
    exists_takesOut hstep 1073 ⟨hrate, hpositive, by linarith, one_le_value_mul hpositive (by decide)⟩
  rw [value_half] at hproduct
  refine ⟨count, last, htakes, hcount.trans (by decide), hlast, ?_, hhigh, hproduct⟩
  rw [← value_half]
  exact le_of_not_gt ((lt_iff_value hlast half_exact.1).not.mp (of_decide_eq_false hbounds))

theorem withRest_cases (found : List Float) (rest : Float) : withRest found rest = found ++ [rest] ∨
    withRest found rest = found ∧ found ≠ [] ∧ ¬ tolerance < Scalar.magnitude (rest - 1) := by
  rw [withRest]
  split_ifs with hkept
  · exact .inl rfl
  · rw [Bool.or_eq_true, not_or, List.isEmpty_iff, decide_eq_true_iff] at hkept
    exact .inr ⟨rfl, hkept⟩

theorem withRest_ne_nil (found : List Float) (rest : Float) : withRest found rest ≠ [] := by
  rcases withRest_cases found rest with heq | ⟨heq, hsome, -⟩ <;> rw [heq]
  · simp
  · exact hsome

section

variable {factor other : Float} {count : Nat}

theorem eq_of_mem_withRest (h : other ∈ withRest (List.replicate count factor) last) :
    other = factor ∨ other = last := by
  rcases withRest_cases (List.replicate count factor) last with heq | ⟨heq, -⟩ <;> rw [heq] at h
  · exact (List.mem_append.mp h).imp List.eq_of_mem_replicate List.mem_singleton.mp
  · exact .inl (List.eq_of_mem_replicate h)

theorem eq_of_mem_dropLast_withRest (h : other ∈ (withRest (List.replicate count factor) last).dropLast) :
    other = factor := by
  rcases withRest_cases (List.replicate count factor) last with heq | ⟨heq, -⟩ <;> rw [heq] at h
  · rw [List.dropLast_concat] at h
    exact List.eq_of_mem_replicate h
  · exact List.eq_of_mem_replicate (List.mem_of_mem_dropLast h)

theorem prod_replicate_value (count : Nat) (factor : Float) :
    ((List.replicate count factor).map value).prod = value factor ^ count := by
  rw [List.map_replicate, List.prod_replicate]

/-- What factors and a rest give, when together they are the rate. -/
theorem prod_withRest (hpositive : 0 < value factor) (hlast : last.isFinite = true) (hlow : 1 / 2 ≤ value last)
    (hhigh : value last ≤ 2) (hproduct : value last * value factor ^ count = value rate) {found : List Float}
    (hfound : withRest (List.replicate count factor) last = found) :
    (found.map value).prod = value rate ∨ ∃ rest, |value rest - 1| ≤ 1 / 10 ^ 6 ∧
      (found.map value).prod * value rest = value rate ∧
        |value rate - (found.map value).prod| ≤ 1 / 10 ^ 6 * (found.map value).prod := by
  subst hfound
  rcases withRest_cases (List.replicate count factor) last with heq | ⟨heq, -, hnear⟩ <;> rw [heq]
  · left
    rw [List.map_append, List.prod_append, prod_replicate_value, List.map_singleton, List.prod_singleton, mul_comm,
      hproduct]
  · have habs := abs_value_sub_one_le hlast hlow hhigh hnear
    have hfactors : 0 < value factor ^ count := pow_pos hpositive count
    refine .inr ⟨last, habs, ?_, ?_⟩
    · rw [prod_replicate_value, mul_comm, hproduct]
    · rw [prod_replicate_value, ← hproduct, ← sub_one_mul, abs_mul, abs_of_pos hfactors]
      exact mul_le_mul_of_nonneg_right habs hfactors.le

theorem areFactors_withRest (hfactor : 0.5 ≤ factor ∧ factor ≤ 2) (hpositive : 0 < value factor)
    (hlast : last.isFinite = true) (hlow : 1 / 2 ≤ value last) (hhigh : value last ≤ 2)
    (hproduct : value last * value factor ^ count = value rate) (hfast : 2 < rate → factor = 2)
    (hslow : rate < 0.5 → factor = 0.5) (hsingle : 0.5 ≤ rate → rate ≤ 2 → count = 0 ∧ last = rate) :
    AreFactors rate (withRest (List.replicate count factor) last) where
  ne_nil := withRest_ne_nil _ _
  bounded := by
    intro other hother
    rcases eq_of_mem_withRest hother with rfl | rfl
    · exact hfactor
    · rw [le_iff_value half_exact.1 hlast, le_iff_value hlast two_exact.1, value_half, two_exact.2]
      exact ⟨hlow, hhigh⟩
  fast hrate _ hother := (eq_of_mem_dropLast_withRest hother).trans (hfast hrate)
  slow hrate _ hother := (eq_of_mem_dropLast_withRest hother).trans (hslow hrate)
  single hslowest hfastest := by
    obtain ⟨rfl, rfl⟩ := hsingle hslowest hfastest
    rfl
  product := prod_withRest hpositive hlast hlow hhigh hproduct rfl

end

theorem factors_eq_withRest {α : Type} [Scalar α] {rate middle last : α} {fast slow : List α}
    (h : (Scalar.isFinite rate && decide (0 < rate)) = true)
    (hfast : takeOut fastest (fun rest => decide (fastest < rest)) maxSteps rate = (fast, middle))
    (hslow : takeOut slowest (fun rest => decide (rest < slowest)) maxSteps middle = (slow, last)) :
    factors rate = withRest (fast ++ slow) last := by
  rw [factors, if_pos h, hfast]
  dsimp only
  rw [hslow]
  rfl

theorem takeOut_fastest (steps : Nat) (rest : Float) :
    takeOut fastest (fun rest => decide (fastest < rest)) steps rest =
      takeOut 2 (fun rest => decide (2 < rest)) steps rest := rfl

theorem takeOut_slowest (steps : Nat) (rest : Float) :
    takeOut slowest (fun rest => decide (rest < slowest)) steps rest =
      takeOut 0.5 (fun rest => decide (rest < 0.5)) steps rest := rfl

theorem factors_of_not (h : ¬ (rate.isFinite = true ∧ 0 < rate)) : factors rate = [] := by
  have hnot : ¬ (Scalar.isFinite rate && decide (0 < rate)) = true := fun hboth =>
    h ((Bool.and_eq_true_iff.mp hboth).imp id of_decide_eq_true)
  rw [factors, if_neg hnot]

theorem decomposes_of_takesOut {fast slow : List Float} {middle : Float} (h : rate.isFinite = true ∧ 0 < rate)
    (hfast : TakesOut 2 (fun rest => decide (2 < rest)) rate fast middle) (hfastSteps : fast.length ≤ maxSteps)
    (hslow : TakesOut 0.5 (fun rest => decide (rest < 0.5)) middle slow last) (hslowSteps : slow.length ≤ maxSteps) :
    factors rate = withRest (fast ++ slow) last ∧ Decomposes rate (factors rate) := by
  have hpositive : (Scalar.isFinite rate && decide (0 < rate)) = true :=
    Bool.and_eq_true_iff.mpr ⟨h.1, decide_eq_true h.2⟩
  have hfactors := factors_eq_withRest hpositive ((takeOut_fastest _ _).trans (hfast.takeOut_eq hfastSteps))
    ((takeOut_slowest _ _).trans (hslow.takeOut_eq hslowSteps))
  refine ⟨hfactors, ?_⟩
  rw [hfactors]
  exact .some h hfast hslow

theorem takesOut_two_nil (hrate : rate.isFinite = true) (h : value rate ≤ 2) :
    TakesOut 2 (fun rest => decide (2 < rest)) rate [] rate := by
  refine .done (decide_eq_false fun hlt => ?_)
  rw [lt_iff_value two_exact.1 hrate, two_exact.2] at hlt
  exact absurd hlt h.not_gt

theorem takesOut_half_nil (hrate : rate.isFinite = true) (h : 1 / 2 ≤ value rate) :
    TakesOut 0.5 (fun rest => decide (rest < 0.5)) rate [] rate := by
  refine .done (decide_eq_false fun hlt => ?_)
  rw [lt_iff_value hrate half_exact.1, value_half] at hlt
  exact absurd hlt h.not_gt

theorem areFactors_factors (h : rate.isFinite = true ∧ 0 < rate) :
    Decomposes rate (factors rate) ∧ AreFactors rate (factors rate) := by
  have hpositive : 0 < value rate := by
    rw [← zero_exact.2]
    exact (lt_iff_value zero_exact.1 h.1).mp h.2
  have hfastest : 2 < rate ↔ 2 < value rate := by rw [lt_iff_value two_exact.1 h.1, two_exact.2]
  have hslowest : rate < 0.5 ↔ value rate < 1 / 2 := by rw [lt_iff_value h.1 half_exact.1, value_half]
  have hhalf : (0.5 : Float) ≤ 0.5 ∧ (0.5 : Float) ≤ 2 := by decide +kernel
  have htwo : (0.5 : Float) ≤ 2 ∧ (2 : Float) ≤ 2 := by decide +kernel
  have hnone : (0 : Nat) ≤ maxSteps := by decide
  rcases lt_or_ge 2 (value rate) with hfast | hle
  · obtain ⟨count, last, htakes, hcount, hlast, hlow, hhigh, hproduct⟩ := takesOut_two h.1 hfast
    have hsteps : (List.replicate count (2 : Float)).length ≤ maxSteps := by rwa [List.length_replicate]
    obtain ⟨hfactors, hfound⟩ :=
      decomposes_of_takesOut h htakes hsteps (takesOut_half_nil hlast (by linarith)) hnone
    refine ⟨hfound, ?_⟩
    rw [hfactors, List.append_nil]
    refine areFactors_withRest htwo (by rw [two_exact.2]; exact two_pos) hlast (by linarith) hhigh
      (by rw [two_exact.2, hproduct]) (fun _ => rfl) (fun hslow => ?_) fun _ hrate => ?_
    · linarith [hslowest.mp hslow]
    · rw [le_iff_value h.1 two_exact.1, two_exact.2] at hrate
      exact absurd hfast hrate.not_gt
  rcases lt_or_ge (value rate) (1 / 2) with hslow | hge
  · obtain ⟨count, last, htakes, hcount, hlast, hlow, hhigh, hproduct⟩ := takesOut_half h.1 hpositive hslow
    have hsteps : (List.replicate count (0.5 : Float)).length ≤ maxSteps := by rwa [List.length_replicate]
    obtain ⟨hfactors, hfound⟩ := decomposes_of_takesOut h (takesOut_two_nil h.1 hle) hnone htakes hsteps
    refine ⟨hfound, ?_⟩
    rw [hfactors, List.nil_append]
    refine areFactors_withRest hhalf (by rw [value_half]; exact one_half_pos) hlast hlow (by linarith)
      (by rw [value_half, hproduct]) (fun hfast => ?_) (fun _ => rfl) fun hrate _ => ?_
    · linarith [hfastest.mp hfast]
    · rw [le_iff_value half_exact.1 h.1, value_half] at hrate
      exact absurd hslow hrate.not_gt
  · obtain ⟨hfactors, hfound⟩ :=
      decomposes_of_takesOut h (takesOut_two_nil h.1 hle) hnone (takesOut_half_nil h.1 hge) hnone
    refine ⟨hfound, ?_⟩
    rw [hfactors]
    refine @areFactors_withRest _ _ 2 0 htwo (by rw [two_exact.2]; exact two_pos) h.1 hge hle
      (by rw [pow_zero, mul_one]) (fun _ => rfl) (fun hslow => ?_) fun _ _ => ⟨rfl, rfl⟩
    linarith [hslowest.mp hslow]

/-- **Factors of a rate.** The search for the stretches of a rate ends. For a positive rate there
are some, each of them from one half to two, all but the last of one kind; and without rounding they
give the rate, or all of it but for what was left out beside them, which is one up to a millionth.
For any other rate there are none. -/
theorem factors_areFactors (rate : Float) :
    Decomposes rate (factors rate) ∧ (rate.isFinite = true ∧ 0 < rate → AreFactors rate (factors rate)) ∧
      (¬ (rate.isFinite = true ∧ 0 < rate) → factors rate = []) := by
  by_cases h : rate.isFinite = true ∧ 0 < rate
  · obtain ⟨hfound, hfactors⟩ := areFactors_factors h
    exact ⟨hfound, fun _ => hfactors, fun hnot => absurd h hnot⟩
  · have hnone := factors_of_not h
    refine ⟨?_, fun hpositive => absurd hpositive h, fun _ => hnone⟩
    rw [hnone]
    exact .none h

theorem factors_areFactors_nearlyTwo : (2.000001 : Float).isFinite = true ∧ 0 < (2.000001 : Float) ∧
    factors (2.000001 : Float) = [2] ∧ AreFactors 2.000001 [2] := by
  have hfactors : factors (2.000001 : Float) = [2] := by decide +kernel
  have hfinite : (2.000001 : Float).isFinite = true := by decide +kernel
  have hpositive : 0 < (2.000001 : Float) := by decide +kernel
  refine ⟨hfinite, hpositive, hfactors, ?_⟩
  rw [← hfactors]
  exact (factors_areFactors 2.000001).2.1 ⟨hfinite, hpositive⟩

end Segue.Tempo
