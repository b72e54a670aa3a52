import Segue.Proofs.Envelope.Formula
import Segue.Proofs.Sorting

/-!
The gain that an automation describes. Main statement: whatever the order of the breakpoints, the
engine computes from the expression the first value before the first of them, straight lines between
neighbours and the last value from the last one on, and where several stand at one time it computes
the value of the last of these.
-/

namespace Segue.Envelope

def sorted (points : List (VolumePoint Rat)) : List (VolumePoint Rat) :=
  points.mergeSort fun a b => Scalar.sortsBefore a.time b.time

/-- Breakpoints stand at one time, or far enough apart for a line. -/
def Apart (first second : VolumePoint Rat) : Prop :=
  first.time = second.time ∨ 1 / 10000 ≤ second.time - first.time

instance (first second : VolumePoint Rat) : Decidable (Apart first second) := inferInstanceAs (Decidable (_ ∨ _))

/-- A value lies on the lines through breakpoints that are in order. -/
structure Follows (points : List (VolumePoint Rat)) (time value : Rat) : Prop where
  before : ∀ first ∈ points.head?, time < first.time → value = first.value
  between : ∀ (place : Nat) (first second : VolumePoint Rat), points[place]? = some first →
    points[place + 1]? = some second → first.time ≤ time → time < second.time →
    value = first.value + (second.value - first.value) * (time - first.time) / (second.time - first.time)
  behind : ∀ last ∈ points.getLast?, last.time ≤ time → value = last.value
  /-- At the time of some breakpoints the value is that of the last of them. -/
  shared : ∀ (place : Nat) (point : VolumePoint Rat), points[place]? = some point → point.time = time →
    (∀ (later : Nat) (other : VolumePoint Rat), place < later → points[later]? = some other → other.time ≠ time) →
    value = point.value

theorem perm_sorted (points : List (VolumePoint Rat)) : (sorted points).Perm points := List.mergeSort_perm _ _

theorem pairwise_sorted (points : List (VolumePoint Rat)) :
    (sorted points).Pairwise fun a b => a.time ≤ b.time :=
  pairwise_mergeSort_key VolumePoint.time points

/-- Breakpoints at one time keep their order. -/
theorem filter_sorted (points : List (VolumePoint Rat)) (time : Rat) :
    ((sorted points).filter fun point => point.time = time) = points.filter fun point => point.time = time :=
  filter_mergeSort_key VolumePoint.time points time

theorem lt_of_lt_first {first : VolumePoint Rat} {rest : List (VolumePoint Rat)} {time : Rat}
    (hsorted : (first :: rest).Pairwise fun a b => a.time ≤ b.time) (htime : time < first.time) :
    ∀ other ∈ first :: rest, time < other.time := by
  refine List.forall_mem_cons.mpr ⟨htime, fun other hother => ?_⟩
  exact htime.trans_le ((List.pairwise_cons.mp hsorted).1 other hother)

theorem leastSpan_eq : (leastSpan : Rat) = 1 / 10000 := by decide +kernel

theorem isDivisible_segment (first second : VolumePoint Rat) : (segment first second).IsDivisible := by
  show Scalar.atLeast leastSpan (second.time - first.time) ≠ 0
  rw [Scalar.atLeast_rat]
  exact ne_of_gt (lt_max_of_lt_left (leastSpan_eq ▸ by norm_num))

theorem isDivisible_gainFrom (first : VolumePoint Rat) (rest : List (VolumePoint Rat)) :
    (gainFrom first rest).IsDivisible := by
  induction rest generalizing first with
  | nil => trivial
  | cons second rest ih => exact ⟨isDivisible_segment first second, ih second⟩

/-- Nothing in the expression of an automation is divided by zero. -/
theorem isDivisible_gain (points : List (VolumePoint Rat)) : (gain points).IsDivisible := by
  unfold gain
  split
  · trivial
  · trivial
  · exact ⟨trivial, isDivisible_gainFrom _ _⟩

/-- The line between two breakpoints that are apart passes through both. -/
theorem value_segment {first second : VolumePoint Rat} {time : Rat} (hapart : Apart first second)
    (hstart : first.time ≤ time) (hstop : time < second.time) :
    (segment first second).value time =
      first.value + (second.value - first.value) * (time - first.time) / (second.time - first.time) := by
  have hspan : leastSpan ≤ second.time - first.time := by
    rw [leastSpan_eq]
    rcases hapart with hequal | hspan
    · exact absurd hequal (ne_of_lt (lt_of_le_of_lt hstart hstop))
    · exact hspan
  show _ + _ / Scalar.atLeast leastSpan (second.time - first.time) = _
  rw [Scalar.atLeast_rat, max_eq_right hspan]

section Follows

variable {first second : VolumePoint Rat} {rest : List (VolumePoint Rat)} {time value : Rat}

/-- Before all breakpoints the value is that of the first one. -/
theorem follows_of_before (hbehind : ∀ other ∈ first :: rest, time < other.time) :
    Follows (first :: rest) time first.value where
  before := by
    rintro _ ⟨⟩ -
    rfl
  between place a b ha _ hstart _ := absurd hstart (not_le.mpr (hbehind a (List.mem_of_getElem? ha)))
  behind last hlast hstop := absurd hstop (not_le.mpr (hbehind last (List.mem_of_getLast? hlast)))
  shared place point hpoint htime _ := absurd htime (ne_of_gt (hbehind point (List.mem_of_getElem? hpoint)))

/-- Between the first two breakpoints the value lies on the line through them. -/
theorem follows_of_between (hstart : first.time ≤ time) (hbehind : ∀ other ∈ second :: rest, time < other.time) :
    Follows (first :: second :: rest) time
      (first.value + (second.value - first.value) * (time - first.time) / (second.time - first.time)) where
  before := by
    rintro _ ⟨⟩ hbefore
    exact absurd hbefore (not_lt.mpr hstart)
  between place a b ha hb hplace _ := by
    cases place with
    | zero =>
        cases ha
        cases hb
        rfl
    | succ place => exact absurd hplace (not_le.mpr (hbehind a (List.mem_of_getElem? ha)))
  behind last hlast hstop := by
    rw [List.getLast?_cons_cons] at hlast
    exact absurd hstop (not_le.mpr (hbehind last (List.mem_of_getLast? hlast)))
  shared place point hpoint htime _ := by
    cases place with
    | zero =>
        cases hpoint
        rw [htime, sub_self, mul_zero, zero_div, add_zero]
    | succ place => exact absurd htime (ne_of_gt (hbehind point (List.mem_of_getElem? hpoint)))

/-- From the second breakpoint on, the first one does not matter. -/
theorem follows_cons_iff (hfirst : first.time ≤ second.time) (hsecond : second.time ≤ time) :
    Follows (first :: second :: rest) time value ↔ Follows (second :: rest) time value := by
  constructor
  · intro h
    refine ⟨?_, fun place => h.between (place + 1), fun last hlast => h.behind last ?_, ?_⟩
    · rintro _ ⟨⟩ hbefore
      exact absurd hbefore (not_lt.mpr hsecond)
    · rw [List.getLast?_cons_cons]
      exact hlast
    · intro place point hpoint htime hlast
      refine h.shared (place + 1) point hpoint htime fun later other hlater hother => ?_
      obtain ⟨later, rfl⟩ := Nat.exists_eq_add_one_of_ne_zero (Nat.ne_zero_of_lt hlater)
      exact hlast later other (Nat.lt_of_succ_lt_succ hlater) hother
  · intro h
    refine ⟨?_, ?_, fun last hlast => h.behind last ?_, ?_⟩
    · rintro _ ⟨⟩ hbefore
      exact absurd hbefore (not_lt.mpr (hfirst.trans hsecond))
    · intro place a b ha hb hstart hstop
      cases place with
      | zero =>
          cases hb
          exact absurd hstop (not_lt.mpr hsecond)
      | succ place => exact h.between place a b ha hb hstart hstop
    · rw [List.getLast?_cons_cons] at hlast
      exact hlast
    · intro place point hpoint htime hlast
      cases place with
      | zero =>
          cases hpoint
          -- the second breakpoint stands at the same time, so the first one is not the last there
          have hsame : second.time = time := le_antisymm hsecond (htime ▸ hfirst)
          exact absurd hsame (hlast 1 second Nat.one_pos rfl)
      | succ place =>
          exact h.shared place point hpoint htime fun later other hlater hother =>
            hlast (later + 1) other (Nat.succ_lt_succ hlater) hother

/-- At each time one value follows some breakpoints at most. -/
theorem Follows.unique {other : Rat} (hsorted : (first :: rest).Pairwise fun a b => a.time ≤ b.time)
    (h : Follows (first :: rest) time value) (hother : Follows (first :: rest) time other) : other = value := by
  by_cases hbefore : time < first.time
  · exact (hother.before first rfl hbefore).trans (h.before first rfl hbefore).symm
  induction rest generalizing first with
  | nil => exact (hother.behind first rfl (not_lt.mp hbefore)).trans (h.behind first rfl (not_lt.mp hbefore)).symm
  | cons second rest ih =>
      by_cases htime : time < second.time
      · exact (hother.between 0 first second rfl rfl (not_lt.mp hbefore) htime).trans
          (h.between 0 first second rfl rfl (not_lt.mp hbefore) htime).symm
      · obtain ⟨hfirst, hsorted⟩ := List.pairwise_cons.mp hsorted
        have hiff : ∀ {value : Rat},
            Follows (first :: second :: rest) time value ↔ Follows (second :: rest) time value :=
          follows_cons_iff (hfirst second List.mem_cons_self) (not_lt.mp htime)
        exact ih hsorted (hiff.mp h) (hiff.mp hother) htime

end Follows

/-- From the first of some breakpoints on, the gain follows them. -/
theorem follows_gainFrom {first : VolumePoint Rat} {rest : List (VolumePoint Rat)} {time : Rat}
    (hsorted : (first :: rest).Pairwise fun a b => a.time ≤ b.time) (hapart : (first :: rest).IsChain Apart)
    (hstart : first.time ≤ time) : Follows (first :: rest) time ((gainFrom first rest).value time) := by
  induction rest generalizing first with
  | nil =>
      refine ⟨?_, ?_, ?_, ?_⟩
      · rintro _ ⟨⟩ hbefore
        exact absurd hbefore (not_lt.mpr hstart)
      · nofun
      · rintro _ ⟨⟩ -
        rfl
      · intro place point hpoint _ _
        rw [List.mem_singleton.mp (List.mem_of_getElem? hpoint)]
        rfl
  | cons second rest ih =>
      obtain ⟨hfirst, hsorted'⟩ := List.pairwise_cons.mp hsorted
      obtain ⟨hnext, hapart'⟩ := List.isChain_cons_cons.mp hapart
      show Follows _ time (if time < second.time then (segment first second).value time
        else (gainFrom second rest).value time)
      by_cases htime : time < second.time
      · rw [if_pos htime, value_segment hnext hstart htime]
        exact follows_of_between hstart (lt_of_lt_first hsorted' htime)
      · have hsecond : second.time ≤ time := not_lt.mp htime
        rw [if_neg htime]
        exact (follows_cons_iff (hfirst second List.mem_cons_self) hsecond).mpr (ih hsorted' hapart' hsecond)

theorem gain_of_sorted {points rest : List (VolumePoint Rat)} {first second : VolumePoint Rat}
    (h : sorted points = first :: second :: rest) :
    gain points = .until first.time (.constant first.value) (gainFrom first (second :: rest)) := by
  rw [sorted] at h
  rw [gain, h]

/-- The gain is what follows breakpoints that are apart, in the order of their times. -/
theorem follows_iff {points : List (VolumePoint Rat)} (hcount : 2 ≤ points.length)
    (hapart : (sorted points).IsChain Apart) (time value : Rat) :
    Follows (sorted points) time value ↔ value = (gain points).value time := by
  rw [← (perm_sorted points).length_eq] at hcount
  obtain ⟨first, second, rest, hlist⟩ : ∃ first second rest, sorted points = first :: second :: rest := by
    match hlist : sorted points with
    | [] => simp [hlist] at hcount
    | [only] => simp [hlist] at hcount
    | first :: second :: rest => exact ⟨first, second, rest, rfl⟩
  have hsorted := pairwise_sorted points
  rw [hlist] at hsorted hapart
  rw [gain_of_sorted hlist, hlist]
  have hfollows : Follows (first :: second :: rest) time
      (if time < first.time then first.value else (gainFrom first (second :: rest)).value time) := by
    by_cases htime : time < first.time
    · rw [if_pos htime]
      exact follows_of_before (lt_of_lt_first hsorted htime)
    · rw [if_neg htime]
      exact follows_gainFrom hsorted hapart (not_lt.mp htime)
  constructor
  · exact hfollows.unique hsorted
  · rintro rfl
    exact hfollows

/-- **The gain of an automation.** The text of an expression is made of its tokens. What the engine
computes from those of an automation with two breakpoints or more, where neighbours in order stand
at one time or are apart, is the value that follows the breakpoints in that order. It always
computes one: nothing is divided by zero. -/
theorem engineValue_gain (points : List (VolumePoint Rat)) (hcount : 2 ≤ points.length)
    (hapart : (sorted points).IsChain Apart) :
    (∀ expr : Expr Float, String.join (expr.tokens.map Token.text) = expr.text) ∧
      (sorted points).Perm points ∧ ((sorted points).Pairwise fun a b => a.time ≤ b.time) ∧
      (∀ time, ((sorted points).filter fun point => point.time = time) = points.filter fun point => point.time = time) ∧
      ∀ time, ∃ value, engineValue? time (gain points).tokens = some value ∧
        ∀ other, Follows (sorted points) time other ↔ other = value := by
  refine ⟨Expr.join_tokens, perm_sorted points, pairwise_sorted points, filter_sorted points, fun time => ?_⟩
  exact ⟨_, engineValue?_tokens (isDivisible_gain points) time, follows_iff hcount hapart time⟩

/-- A full volume that ends at once, ten seconds into the track. -/
def stepDown : List (VolumePoint Rat) := [⟨10, 1⟩, ⟨0, 1⟩, ⟨10, 0⟩]

theorem sorted_stepDown : sorted stepDown = [⟨0, 1⟩, ⟨10, 1⟩, ⟨10, 0⟩] := by
  simp [sorted, stepDown, List.mergeSort, List.MergeSort.Internal.splitInTwo]

theorem engineValue_gain_stepDown :
    2 ≤ stepDown.length ∧ (sorted stepDown).IsChain Apart ∧ ∃ value,
      engineValue? 10 (gain stepDown).tokens = some value ∧
        ∀ other, Follows (sorted stepDown) 10 other ↔ other = value := by
  have hcount : 2 ≤ stepDown.length := by decide
  have hapart : (sorted stepDown).IsChain Apart := by
    rw [sorted_stepDown]
    decide +kernel
  exact ⟨hcount, hapart, (engineValue_gain stepDown hcount hapart).2.2.2.2 10⟩

example : engineValue? 10 (gain stepDown).tokens = some 0 := by
  rw [gain_of_sorted sorted_stepDown]
  decide +kernel

end Segue.Envelope
