import Segue.Proofs.Double.Exact
import Segue.Proofs.Interval.Doubles

/-!
The runs of what is cut out as the normal form of a set of times. Main statement: the runs are
intervals of positive length in order, with a gap between any two neighbours, and hold the times
that the regions remove; regions that remove the same times have the same runs, and the runs of runs
are these runs themselves.
-/

namespace Segue

open Segue.Double

namespace Interval

section

variable {first other : Interval Rat} {rest others : List (Interval Rat)} {time : Rat}

/-- The intervals behind the first hold what is held from the stop of the first on. -/
theorem Separated.exists_mem_rest_iff (h : Separated (first :: rest)) :
    (∃ interval ∈ rest, time ∈ interval) ↔ first.stop ≤ time ∧ ∃ interval ∈ first :: rest, time ∈ interval := by
  rw [List.exists_mem_cons_iff]
  constructor
  · rintro ⟨interval, hmem, htime⟩
    have hbehind := (List.pairwise_cons.mp h.apart).1 interval hmem
    exact ⟨(hbehind.trans_le htime.1).le, .inr ⟨interval, hmem, htime⟩⟩
  · rintro ⟨hstop, hfirst | hrest⟩
    · exact absurd hfirst.2 (not_lt.mpr hstop)
    · exact hrest

theorem Separated.start_le (h : Separated (first :: rest)) (hmem : ∃ interval ∈ first :: rest, time ∈ interval) :
    first.start ≤ time := by
  rcases lt_or_ge time first.stop with hlt | hge
  · obtain hfirst | hrest := (List.exists_mem_cons_iff _ _ _).mp hmem
    · exact hfirst.1
    · exact absurd (h.exists_mem_rest_iff.mp hrest).1 (not_le.mpr hlt)
  · exact (h.positive first List.mem_cons_self).le.trans hge

/-- There is a gap behind the first interval. -/
theorem Separated.stop_not_mem (h : Separated (first :: rest)) :
    ¬ ∃ interval ∈ first :: rest, first.stop ∈ interval := by
  rintro ⟨interval, hmem, htime⟩
  rcases List.mem_cons.mp hmem with rfl | hmem
  · exact lt_irrefl _ htime.2
  · exact absurd htime.1 (not_le.mpr ((List.pairwise_cons.mp h.apart).1 interval hmem))

theorem Separated.exists_mem_start (h : Separated (first :: rest)) :
    ∃ interval ∈ first :: rest, first.start ∈ interval :=
  ⟨first, List.mem_cons_self, le_rfl, h.positive first List.mem_cons_self⟩

/-- No interval that starts with the first one goes on into the gap behind it, if the times in it
are all held. -/
theorem Separated.stop_le (h : Separated (first :: rest)) (hstart : other.start = first.start)
    (hsub : (∃ interval ∈ other :: others, first.stop ∈ interval) → ∃ interval ∈ first :: rest, first.stop ∈ interval) :
    other.stop ≤ first.stop := by
  by_contra hlater
  have hpositive := h.positive first List.mem_cons_self
  exact h.stop_not_mem (hsub ⟨other, List.mem_cons_self, hstart.trans_le hpositive.le, not_le.mp hlater⟩)

/-- Separated intervals are determined by the times that they hold. -/
theorem Separated.unique {intervals others : List (Interval Rat)} (h : Separated intervals) (hothers : Separated others)
    (hmem : ∀ time, (∃ interval ∈ intervals, time ∈ interval) ↔ ∃ interval ∈ others, time ∈ interval) :
    intervals = others := by
  induction intervals generalizing others with
  | nil =>
      cases others with
      | nil => rfl
      | cons other others =>
          obtain ⟨interval, hnone, -⟩ := (hmem _).mpr hothers.exists_mem_start
          exact absurd hnone List.not_mem_nil
  | cons first rest ih =>
      cases others with
      | nil =>
          obtain ⟨interval, hnone, -⟩ := (hmem _).mp h.exists_mem_start
          exact absurd hnone List.not_mem_nil
      | cons other others =>
          have hstart : first.start = other.start :=
            le_antisymm (h.start_le ((hmem _).mpr hothers.exists_mem_start))
              (hothers.start_le ((hmem _).mp h.exists_mem_start))
          have hstop : first.stop = other.stop :=
            le_antisymm (hothers.stop_le hstart (hmem _).mp) (h.stop_le hstart.symm (hmem _).mpr)
          have hrest : rest = others := ih h.tail hothers.tail fun time => by
            rw [h.exists_mem_rest_iff, hothers.exists_mem_rest_iff, hstop, hmem]
          have hfirst : first = other := by
            cases first
            cases other
            exact congrArg₂ Interval.mk hstart hstop
          rw [hfirst, hrest]

end

structure IsFinite (interval : Interval Float) : Prop where
  start : interval.start.isFinite = true
  stop : interval.stop.isFinite = true

/-- An interval of doubles by the numbers that its ends stand for. -/
def numbers (interval : Interval Float) : Interval Rat where
  start := value interval.start
  stop := value interval.stop

variable {run : Interval Float} {rest runs : List (Interval Float)}

theorem place_eq_value_mul {x : Float} (h : x.isFinite = true) : (place x : Rat) = value x * perOne := by
  rw [place_of_isFinite h, value, div_mul_cancel₀ _ perOne_pos_rat.ne']

theorem IsFinite.start_eq (h : run.IsFinite) : run.placed.start = run.numbers.start * perOne :=
  place_eq_value_mul h.start

theorem IsFinite.stop_eq (h : run.IsFinite) : run.placed.stop = run.numbers.stop * perOne :=
  place_eq_value_mul h.stop

theorem IsFinite.mem_numbers_iff (h : run.IsFinite) {time : Rat} : time ∈ run.numbers ↔ time * perOne ∈ run.placed := by
  rw [mem_iff, mem_iff, h.start_eq, h.stop_eq, mul_le_mul_iff_of_pos_right perOne_pos_rat,
    mul_lt_mul_iff_of_pos_right perOne_pos_rat]

theorem Separated.numbers (hfinite : ∀ run ∈ runs, run.IsFinite) (h : Separated (runs.map placed)) :
    Separated (runs.map Interval.numbers) where
  positive := by
    refine List.forall_mem_map.mpr fun run hrun => ?_
    have hlt := h.positive _ (List.mem_map_of_mem hrun)
    rwa [(hfinite run hrun).start_eq, (hfinite run hrun).stop_eq, mul_lt_mul_iff_of_pos_right perOne_pos_rat] at hlt
  apart := by
    refine List.pairwise_map.mpr ((List.pairwise_map.mp h.apart).imp_of_mem fun {before after} hbefore hafter hlt => ?_)
    rwa [(hfinite before hbefore).stop_eq, (hfinite after hafter).start_eq,
      mul_lt_mul_iff_of_pos_right perOne_pos_rat] at hlt

theorem isFinite_larger {x y : Float} (hx : x.isFinite = true) (hy : y.isFinite = true) :
    (Scalar.larger x y).isFinite = true := by
  unfold Scalar.larger
  split_ifs
  · exact hx
  · exact hy
  · exact hx

theorem isFinite_of_mem_coalesce (hrun : run.IsFinite) (hrest : ∀ interval ∈ rest, interval.IsFinite) :
    ∀ interval ∈ coalesce run rest, interval.IsFinite := by
  induction rest generalizing run with
  | nil => exact List.forall_mem_singleton.mpr hrun
  | cons next rest ih =>
      obtain ⟨hnext, hrest⟩ := List.forall_mem_cons.mp hrest
      rw [coalesce]
      split
      · exact ih ⟨hrun.start, isFinite_larger hrun.stop hnext.stop⟩ hrest
      · exact List.forall_mem_cons.mpr ⟨hrun, ih hnext hrest⟩

end Interval

def RemovedRegion.IsFinite (region : RemovedRegion Float) : Prop :=
  region.start.isFinite = true ∧ region.stop.isFinite = true

/-- A time lies in an enabled region of positive length. -/
def IsRemoved (regions : List (RemovedRegion Float)) (time : Rat) : Prop :=
  ∃ region ∈ regions, region.IsCut ∧ value region.start ≤ time ∧ time < value region.stop

def Interval.region (interval : Interval Float) : RemovedRegion Float where
  start := interval.start
  stop := interval.stop

namespace Interval

variable {regions others : List (RemovedRegion Float)}

theorem isFinite_of_mem_merge (hfinite : ∀ region ∈ regions, region.IsFinite) :
    ∀ run ∈ merge regions, run.IsFinite := by
  have hcut : ∀ cut ∈ (ofRegions regions).mergeSort (fun a b => Scalar.sortsBefore a.start b.start), cut.IsFinite := by
    intro cut hmem
    obtain ⟨region, hregion, -, -, rfl⟩ := mem_ofRegions.mp (List.mem_mergeSort.mp hmem)
    exact ⟨(hfinite region hregion).1, (hfinite region hregion).2⟩
  rw [merge]
  split
  · exact List.forall_mem_nil _
  · rename_i first rest heq
    rw [heq] at hcut
    obtain ⟨hfirst, hrest⟩ := List.forall_mem_cons.mp hcut
    exact isFinite_of_mem_coalesce hfirst hrest

/-- The runs hold the times that are removed. -/
theorem exists_mem_numbers_merge (hfinite : ∀ region ∈ regions, region.IsFinite) (time : Rat) :
    (∃ run ∈ (merge regions).map numbers, time ∈ run) ↔ IsRemoved regions time := by
  have hruns : (∃ run ∈ (merge regions).map numbers, time ∈ run) ↔
      ∃ run ∈ (merge regions).map placed, time * perOne ∈ run := by
    simp only [List.mem_map, exists_exists_and_eq_and]
    exact exists_congr fun run => and_congr_right fun hrun => (isFinite_of_mem_merge hfinite run hrun).mem_numbers_iff
  rw [hruns, (merge_placed regions).2.2]
  constructor
  · rintro ⟨_, hplaced, hmem⟩
    obtain ⟨cut, hcut, rfl⟩ := List.mem_map.mp hplaced
    obtain ⟨region, hregion, henabled, hlt, rfl⟩ := mem_ofRegions.mp hcut
    have hends : IsFinite ⟨region.start, region.stop⟩ := ⟨(hfinite region hregion).1, (hfinite region hregion).2⟩
    exact ⟨region, hregion, ⟨henabled, hlt⟩, hends.mem_numbers_iff.mpr hmem⟩
  · rintro ⟨region, hregion, ⟨henabled, hlt⟩, hmem⟩
    have hends : IsFinite ⟨region.start, region.stop⟩ := ⟨(hfinite region hregion).1, (hfinite region hregion).2⟩
    exact ⟨_, List.mem_map_of_mem (mem_ofRegions.mpr ⟨region, hregion, henabled, hlt, rfl⟩),
      hends.mem_numbers_iff.mp hmem⟩

theorem separated_numbers_merge (hfinite : ∀ region ∈ regions, region.IsFinite) :
    Separated ((merge regions).map numbers) :=
  (merge_placed regions).2.1.numbers (isFinite_of_mem_merge hfinite)

/-- Regions that remove the same times have the same runs. -/
theorem numbers_merge_congr (hfinite : ∀ region ∈ regions, region.IsFinite)
    (hothers : ∀ region ∈ others, region.IsFinite) (h : ∀ time, IsRemoved others time ↔ IsRemoved regions time) :
    (merge others).map numbers = (merge regions).map numbers :=
  (separated_numbers_merge hothers).unique (separated_numbers_merge hfinite) fun time => by
    rw [exists_mem_numbers_merge hothers, exists_mem_numbers_merge hfinite, h]

theorem isRemoved_congr (h : ∀ region, region ∈ others ↔ region ∈ regions) (time : Rat) :
    IsRemoved others time ↔ IsRemoved regions time := by
  simp only [IsRemoved, h]

theorem isRemoved_append {time : Rat} :
    IsRemoved (regions ++ others) time ↔ IsRemoved regions time ∨ IsRemoved others time := by
  simp only [IsRemoved, List.mem_append, or_and_right, exists_or]

theorem isRemoved_cons {region : RemovedRegion Float} {time : Rat} :
    IsRemoved (region :: regions) time ↔
      (region.IsCut ∧ value region.start ≤ time ∧ time < value region.stop) ∨ IsRemoved regions time :=
  List.exists_mem_cons_iff _ _ _

/-- A region that is split at a point from its start to its stop removes the times that its two
parts do. -/
theorem isRemoved_split {region : RemovedRegion Float} {point : Float} (hregion : region.IsFinite)
    (hpoint : point.isFinite = true) (hstart : region.start ≤ point) (hstop : point ≤ region.stop) (time : Rat) :
    IsRemoved ({ region with stop := point } :: { region with start := point } :: others) time ↔
      IsRemoved (region :: others) time := by
  have hstart' := (le_iff_value hregion.1 hpoint).mp hstart
  have hstop' := (le_iff_value hpoint hregion.2).mp hstop
  rw [isRemoved_cons, isRemoved_cons, isRemoved_cons, ← or_assoc]
  refine or_congr_left ?_
  simp only [RemovedRegion.IsCut, lt_iff_value hregion.1 hpoint, lt_iff_value hpoint hregion.2,
    lt_iff_value hregion.1 hregion.2]
  constructor
  · rintro (⟨⟨henabled, -⟩, hle, hlt⟩ | ⟨⟨henabled, -⟩, hle, hlt⟩)
    · exact ⟨⟨henabled, hle.trans_lt (hlt.trans_le hstop')⟩, hle, hlt.trans_le hstop'⟩
    · exact ⟨⟨henabled, hstart'.trans_lt (hle.trans_lt hlt)⟩, hstart'.trans hle, hlt⟩
  · rintro ⟨⟨henabled, -⟩, hle, hlt⟩
    rcases lt_or_ge time (value point) with hbefore | hbehind
    · exact .inl ⟨⟨henabled, hle.trans_lt hbefore⟩, hle, hbefore⟩
    · exact .inr ⟨⟨henabled, hbehind.trans_lt hlt⟩, hbehind, hlt⟩

theorem coalesce_of_apart {run : Interval Float} {rest : List (Interval Float)}
    (h : (run :: rest).Pairwise fun before after => ¬ after.start ≤ before.stop) : coalesce run rest = run :: rest := by
  induction rest generalizing run with
  | nil => rfl
  | cons next rest ih =>
      obtain ⟨hnext, hrest⟩ := List.pairwise_cons.mp h
      rw [coalesce, if_neg (hnext next List.mem_cons_self), ih hrest]

theorem ofRegions_map_region {runs : List (Interval Float)} (h : ∀ run ∈ runs, run.start < run.stop) :
    ofRegions (runs.map region) = runs := by
  have hall : (runs.map region).filter (fun region => region.enabled && decide (region.start < region.stop)) =
      runs.map region :=
    List.filter_eq_self.mpr (List.forall_mem_map.mpr fun run hrun => decide_eq_true (h run hrun))
  rw [ofRegions, hall, List.map_map]
  exact List.map_id' runs

/-- The runs of separated intervals are these intervals themselves. -/
theorem merge_map_region {runs : List (Interval Float)} (hdefined : ∀ run ∈ runs, run.IsDefined)
    (h : Separated (runs.map placed)) : merge (runs.map region) = runs := by
  have hpositive : ∀ run ∈ runs, run.start < run.stop := fun run hrun =>
    (lt_iff_placed (hdefined run hrun).start (hdefined run hrun).stop).mpr (h.positive _ (List.mem_map_of_mem hrun))
  have hapart : runs.Pairwise fun before after => ¬ after.start ≤ before.stop :=
    (List.pairwise_map.mp h.apart).imp_of_mem fun {before after} hbefore hafter hlt hle =>
      absurd ((le_iff_placed (hdefined after hafter).start (hdefined before hbefore).stop).mp hle) (not_le.mpr hlt)
  have hsorted : runs.Pairwise fun a b => Scalar.sortsBefore a.start b.start = true := by
    refine (List.pairwise_map.mp h.apart).imp_of_mem fun {before after} hbefore hafter hlt => ?_
    refine decide_eq_true (le_of_not_ge fun hkey => ?_)
    have hplace := place_le_of_floatKey (hdefined after hafter).start (hdefined before hbefore).start hkey
    have hstart : (place before.start : Rat) < place after.start :=
      (h.positive _ (List.mem_map_of_mem hbefore)).trans hlt
    exact absurd (Int.cast_lt.mp hstart) (not_lt.mpr hplace)
  rw [merge, ofRegions_map_region hpositive, List.mergeSort_of_pairwise hsorted]
  cases runs with
  | nil => rfl
  | cons first rest => exact coalesce_of_apart hapart

/-- The runs of regions are intervals of positive length in order with gaps between them, and hold
just the times that the regions remove. So they only depend on these times: not on the order of the
regions, on how often one is given or on where one is split. The runs of the runs are the runs
themselves. -/
theorem merge_normal_form (hfinite : ∀ region ∈ regions, region.IsFinite) :
    (Separated ((merge regions).map numbers) ∧
      ∀ time, (∃ run ∈ (merge regions).map numbers, time ∈ run) ↔ IsRemoved regions time) ∧
    (∀ others, (∀ region ∈ others, region.IsFinite) → (∀ time, IsRemoved others time ↔ IsRemoved regions time) →
      (merge others).map numbers = (merge regions).map numbers) ∧
    (∀ others, (∀ region, region ∈ others ↔ region ∈ regions) →
      (merge others).map numbers = (merge regions).map numbers) ∧
    (∀ before region after (point : Float), regions = before ++ region :: after → point.isFinite = true →
      region.start ≤ point → point ≤ region.stop →
      (merge (before ++ { region with stop := point } :: { region with start := point } :: after)).map numbers =
        (merge regions).map numbers) ∧
    merge ((merge regions).map region) = merge regions := by
  refine ⟨⟨separated_numbers_merge hfinite, exists_mem_numbers_merge hfinite⟩, ?_, ?_, ?_, ?_⟩
  · intro others hothers hsame
    exact numbers_merge_congr hfinite hothers hsame
  · intro others hsame
    exact numbers_merge_congr hfinite (fun region hregion => hfinite region ((hsame region).mp hregion))
      (isRemoved_congr hsame)
  · rintro before region after point rfl hpoint hstart hstop
    obtain ⟨hbefore, hbehind⟩ := List.forall_mem_append.mp hfinite
    obtain ⟨hregion, hafter⟩ := List.forall_mem_cons.mp hbehind
    refine numbers_merge_congr hfinite (List.forall_mem_append.mpr ⟨hbefore, ?_⟩) fun time => ?_
    · exact List.forall_mem_cons.mpr ⟨⟨hregion.1, hpoint⟩, List.forall_mem_cons.mpr ⟨⟨hpoint, hregion.2⟩, hafter⟩⟩
    · rw [isRemoved_append, isRemoved_append, isRemoved_split hregion hpoint hstart hstop]
  · exact merge_map_region (merge_placed regions).1 (merge_placed regions).2.1

/-- Regions out of order that overlap or touch, and one inside another one. -/
def scattered : List (RemovedRegion Float) :=
  [⟨40.0, 50.0, true⟩, ⟨10.0, 20.0, true⟩, ⟨20.0, 25.0, true⟩, ⟨45.0, 60.0, true⟩, ⟨12.0, 13.0, true⟩]

theorem merge_normal_form_scattered :
    (∀ region ∈ scattered, region.IsFinite) ∧ Separated ((merge scattered).map numbers) ∧
      (merge scattered.reverse).map numbers = (merge scattered).map numbers ∧
      (merge ([] ++ ⟨40.0, 42.0, true⟩ :: ⟨42.0, 50.0, true⟩ :: scattered.tail)).map numbers =
        (merge scattered).map numbers ∧
      merge ((merge scattered).map region) = merge scattered := by
  have hfinite : ∀ region ∈ scattered, region.IsFinite := by
    unfold RemovedRegion.IsFinite
    decide +kernel
  obtain ⟨⟨hseparated, -⟩, -, hsame, hsplit, hagain⟩ := merge_normal_form hfinite
  refine ⟨hfinite, hseparated, hsame _ fun _ => List.mem_reverse, ?_, hagain⟩
  exact hsplit [] ⟨40.0, 50.0, true⟩ scattered.tail 42.0 rfl (by decide +kernel) (by decide +kernel) (by decide +kernel)

end Interval

end Segue
