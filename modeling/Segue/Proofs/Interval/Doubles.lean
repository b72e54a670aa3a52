import Segue.Proofs.Double.Order
import Segue.Proofs.Interval.Remainder

/-!
Cutting regions out of a window of doubles. The ends of intervals are only ever compared, so their
places in the order of doubles say all that matters. Main statement: without a cut the window itself
is kept, and else parts of positive length inside it, in order with gaps between them, which hold
the times of the window that no cut holds.
-/

namespace Segue

open Segue.Double

namespace Double

variable {x y : Float}

theorem place_larger (hx : x.isNaN = false) (hy : y.isNaN = false) :
    (Scalar.larger x y).isNaN = false ∧ place (Scalar.larger x y) = max (place x) (place y) := by
  rw [Scalar.larger]
  split
  · exact ⟨hx, (max_eq_left (le_of_lt ((lt_iff_place hy hx).mp ‹_›))).symm⟩
  · rw [if_pos ((le_iff_place hy hy).mpr le_rfl)]
    exact ⟨hy, (max_eq_right (not_lt.mp ((lt_iff_place hy hx).not.mp ‹_›))).symm⟩

theorem place_smaller (hx : x.isNaN = false) (hy : y.isNaN = false) :
    (Scalar.smaller x y).isNaN = false ∧ place (Scalar.smaller x y) = min (place x) (place y) := by
  rw [Scalar.smaller]
  split
  · exact ⟨hx, (min_eq_left (le_of_lt ((lt_iff_place hx hy).mp ‹_›))).symm⟩
  · rw [if_pos ((le_iff_place hy hy).mpr le_rfl)]
    exact ⟨hy, (min_eq_right (not_lt.mp ((lt_iff_place hx hy).not.mp ‹_›))).symm⟩

end Double

namespace Interval

structure IsDefined (interval : Interval Float) : Prop where
  start : interval.start.isNaN = false
  stop : interval.stop.isNaN = false

/-- An interval of doubles by the places of its ends. -/
def placed (interval : Interval Float) : Interval Rat where
  start := place interval.start
  stop := place interval.stop

variable {interval run : Interval Float} {rest : List (Interval Float)}

theorem isDefined_of_lt (h : interval.start < interval.stop) : interval.IsDefined :=
  ⟨(isNaN_of_lt h).1, (isNaN_of_lt h).2⟩

theorem lt_iff_placed {x y : Float} (hx : x.isNaN = false) (hy : y.isNaN = false) :
    x < y ↔ (place x : Rat) < place y := by
  rw [lt_iff_place hx hy, Int.cast_lt]

theorem le_iff_placed {x y : Float} (hx : x.isNaN = false) (hy : y.isNaN = false) :
    x ≤ y ↔ (place x : Rat) ≤ place y := by
  rw [le_iff_place hx hy, Int.cast_le]

theorem mem_iff_placed (h : interval.IsDefined) {time : Float} (htime : time.isNaN = false) :
    time ∈ interval ↔ (place time : Rat) ∈ interval.placed :=
  and_congr (le_iff_placed h.start htime) (lt_iff_placed htime h.stop)

theorem isNaN_of_mem {time : Float} (h : time ∈ interval) : time.isNaN = false := (isNaN_of_lt h.2).1

theorem coalesce_placed (hrun : run.IsDefined) (hrest : ∀ interval ∈ rest, interval.IsDefined) :
    (∀ interval ∈ coalesce run rest, interval.IsDefined) ∧
      (coalesce run rest).map placed = coalesce run.placed (rest.map placed) := by
  induction rest generalizing run with
  | nil => exact ⟨by rwa [coalesce, List.forall_mem_singleton], rfl⟩
  | cons next rest ih =>
      obtain ⟨hnext, hrest⟩ := List.forall_mem_cons.mp hrest
      obtain ⟨hstop, hplace⟩ := place_larger hrun.stop hnext.stop
      rw [coalesce, List.map_cons, coalesce]
      have hcond : next.start ≤ run.stop ↔ next.placed.start ≤ run.placed.stop := le_iff_placed hnext.start hrun.stop
      by_cases hle : next.start ≤ run.stop
      · have hmerged : ({ run with stop := Scalar.larger run.stop next.stop } : Interval Float).placed =
            { run.placed with stop := Scalar.larger run.placed.stop next.placed.stop } := by
          rw [Scalar.larger_rat, placed, hplace, Int.cast_max]
          rfl
        rw [if_pos hle, if_pos (hcond.mp hle), ← hmerged]
        exact ih ⟨hrun.start, hstop⟩ hrest
      · obtain ⟨hdefined, hmap⟩ := ih hnext hrest
        rw [if_neg hle, if_neg (hcond.not.mp hle), List.map_cons, hmap]
        exact ⟨List.forall_mem_cons.mpr ⟨hrun, hdefined⟩, rfl⟩

theorem between_placed {start stop : Float} (hstart : start.isNaN = false) (hstop : stop.isNaN = false) :
    (∀ part ∈ between start stop, part.IsDefined) ∧
      (between start stop).map placed = between (place start : Rat) (place stop) := by
  rw [between, between]
  by_cases hlt : start < stop
  · rw [if_pos hlt, if_pos ((lt_iff_placed hstart hstop).mp hlt), List.forall_mem_singleton]
    exact ⟨⟨hstart, hstop⟩, rfl⟩
  · rw [if_neg hlt, if_neg ((lt_iff_placed hstart hstop).not.mp hlt)]
    exact ⟨List.forall_mem_nil _, rfl⟩

theorem keptFrom_placed {cursor windowEnd : Float} {runs : List (Interval Float)} (hcursor : cursor.isNaN = false)
    (hend : windowEnd.isNaN = false) (hruns : ∀ run ∈ runs, run.IsDefined) :
    (∀ part ∈ keptFrom cursor windowEnd runs, part.IsDefined) ∧
      (keptFrom cursor windowEnd runs).map placed =
        keptFrom (place cursor : Rat) (place windowEnd) (runs.map placed) := by
  induction runs generalizing cursor with
  | nil => exact between_placed hcursor hend
  | cons run rest ih =>
      obtain ⟨hrun, hrest⟩ := List.forall_mem_cons.mp hruns
      have hafter : windowEnd ≤ run.start ↔ (place windowEnd : Rat) ≤ run.placed.start := le_iff_placed hend hrun.start
      have hbefore : run.stop ≤ cursor ↔ run.placed.stop ≤ (place cursor : Rat) := le_iff_placed hrun.stop hcursor
      have hgap : cursor < run.start ↔ (place cursor : Rat) < run.placed.start := lt_iff_placed hcursor hrun.start
      rw [keptFrom, List.map_cons, keptFrom]
      by_cases h : windowEnd ≤ run.start
      · rw [if_pos h, if_pos (hafter.mp h)]
        exact between_placed hcursor hend
      · rw [if_neg h, if_neg (hafter.not.mp h)]
        by_cases h : run.stop ≤ cursor
        · rw [if_pos h, if_pos (hbefore.mp h)]
          exact ih hcursor hrest
        · obtain ⟨hlarger, hlarger'⟩ := place_larger hcursor hrun.stop
          obtain ⟨hsmaller, hsmaller'⟩ := place_smaller hrun.start hend
          obtain ⟨hlater, hmap⟩ := ih hlarger hrest
          have hnext : (place (Scalar.larger cursor run.stop) : Rat) =
              Scalar.larger (place cursor : Rat) run.placed.stop := by
            rw [hlarger', Int.cast_max, Scalar.larger_rat]
            rfl
          have hpart : ({ start := cursor, stop := Scalar.smaller run.start windowEnd } : Interval Float).placed =
              { start := place cursor, stop := Scalar.smaller run.placed.start (place windowEnd) } := by
            rw [Scalar.smaller_rat, placed, hsmaller', Int.cast_min]
            rfl
          rw [if_neg h, if_neg (hbefore.not.mp h), ← hnext, ← hmap, ← hpart]
          by_cases h : cursor < run.start
          · rw [if_pos h, if_pos (hgap.mp h)]
            exact ⟨List.forall_mem_cons.mpr ⟨⟨hcursor, hsmaller⟩, hlater⟩, List.map_cons⟩
          · rw [if_neg h, if_neg (hgap.not.mp h)]
            exact ⟨hlater, rfl⟩

end Interval

/-- Whether a region is cut out: it is enabled and of positive length. -/
def RemovedRegion.IsCut (region : RemovedRegion Float) : Prop := region.enabled = true ∧ region.start < region.stop

namespace Interval

/-- What is cut out in order of the starts: intervals of positive length, in order of the places of
their starts. -/
theorem sorted_ofRegions_placed (regions : List (RemovedRegion Float)) :
    ∀ cuts, (ofRegions regions).mergeSort (fun a b => Scalar.sortsBefore a.start b.start) = cuts →
      (∀ cut ∈ cuts, cut.start < cut.stop) ∧
        (cuts.map placed).Pairwise (fun a b => a.start ≤ b.start) ∧ ∀ cut, cut ∈ cuts ↔ cut ∈ ofRegions regions := by
  rintro cuts rfl
  have hmem : ∀ cut, cut ∈ (ofRegions regions).mergeSort (fun a b => Scalar.sortsBefore a.start b.start) ↔
      cut ∈ ofRegions regions := fun _ => List.mem_mergeSort
  have hpositive : ∀ cut ∈ (ofRegions regions).mergeSort (fun a b => Scalar.sortsBefore a.start b.start),
      cut.start < cut.stop := by
    intro cut hcut
    obtain ⟨region, -, -, hlt, rfl⟩ := mem_ofRegions.mp ((hmem cut).mp hcut)
    exact hlt
  refine ⟨hpositive, List.pairwise_map.mpr ?_, hmem⟩
  have hsorted := pairwise_mergeSort_key (fun cut => Scalar.floatKey (Interval.start cut)) (ofRegions regions)
  refine hsorted.imp_of_mem fun {a b} ha hb hbefore => ?_
  have hplaces := place_le_of_floatKey (isDefined_of_lt (hpositive a ha)).start (isDefined_of_lt (hpositive b hb)).start
    hbefore
  exact Int.cast_le.mpr hplaces

/-- The runs of what is cut out, by their places, are separated and hold the times of the cuts. -/
theorem merge_placed (regions : List (RemovedRegion Float)) :
    (∀ run ∈ merge regions, run.IsDefined) ∧ Separated ((merge regions).map placed) ∧
      ∀ time : Rat, (∃ run ∈ (merge regions).map placed, time ∈ run) ↔
        ∃ cut ∈ (ofRegions regions).map placed, time ∈ cut := by
  rw [merge]
  split
  · rename_i heq
    obtain ⟨-, -, hmem⟩ := sorted_ofRegions_placed regions _ heq
    have hnone : ofRegions regions = [] :=
      List.eq_nil_iff_forall_not_mem.mpr fun cut => (hmem cut).not.mp List.not_mem_nil
    rw [hnone]
    exact ⟨List.forall_mem_nil _, ⟨List.forall_mem_nil _, List.Pairwise.nil⟩, fun _ => Iff.rfl⟩
  · rename_i first rest heq
    obtain ⟨hpositive, hsorted, hmem⟩ := sorted_ofRegions_placed regions _ heq
    obtain ⟨hfirst, hrest⟩ := List.forall_mem_cons.mp hpositive
    have hplaced : ∀ cut : Interval Float, cut.start < cut.stop → cut.placed.start < cut.placed.stop :=
      fun cut hcut => (lt_iff_placed (isDefined_of_lt hcut).start (isDefined_of_lt hcut).stop).mp hcut
    obtain ⟨hdefined, hmap⟩ := coalesce_placed (isDefined_of_lt hfirst) fun cut hcut => isDefined_of_lt (hrest cut hcut)
    rw [List.map_cons] at hsorted
    rw [hmap]
    refine ⟨hdefined, (separated_coalesce (hplaced first hfirst) ?_ hsorted).1, fun time => ?_⟩
    · exact List.forall_mem_map.mpr fun cut hcut => hplaced cut (hrest cut hcut)
    · rw [exists_mem_coalesce hsorted, ← List.map_cons]
      simp only [List.mem_map, hmem]

/-- What is left of a window when regions are cut out of it. -/
structure IsRemainder (window : Interval Float) (regions : List (RemovedRegion Float))
    (parts : List (Interval Float)) : Prop where
  positive : ∀ part ∈ parts, part.start < part.stop
  inside : ∀ part ∈ parts, window.start ≤ part.start ∧ part.stop ≤ window.stop
  /-- The parts are in order, with a gap between any two of them. -/
  apart : parts.Pairwise fun before after => before.stop < after.start
  mem_iff : ∀ time : Float, (∃ part ∈ parts, time ∈ part) ↔
    time ∈ window ∧ ∀ region ∈ regions, region.IsCut → ¬(region.start ≤ time ∧ time < region.stop)

variable {window : Interval Float} {regions : List (RemovedRegion Float)}

/-- Nothing is left when every time of the window is in a cut, as when the window is empty. -/
theorem IsRemainder.eq_nil_iff {parts : List (Interval Float)} (h : IsRemainder window regions parts) :
    parts = [] ↔ ∀ time ∈ window, ∃ region ∈ regions, region.IsCut ∧ region.start ≤ time ∧ time < region.stop := by
  constructor
  · rintro rfl time hwindow
    by_contra hnone
    push Not at hnone
    have hkept := (h.mem_iff time).mpr ⟨hwindow, fun region hregion hcut htime =>
      absurd htime.2 (hnone region hregion hcut htime.1)⟩
    obtain ⟨part, hpart, -⟩ := hkept
    exact List.not_mem_nil hpart
  · intro hcovered
    refine List.eq_nil_iff_forall_not_mem.mpr fun part hpart => ?_
    have hdefined := isDefined_of_lt (h.positive part hpart)
    have hstart : part.start ∈ part :=
      ⟨(le_iff_place hdefined.start hdefined.start).mpr le_rfl, h.positive part hpart⟩
    obtain ⟨hwindow, hout⟩ := (h.mem_iff part.start).mp ⟨part, hpart, hstart⟩
    obtain ⟨region, hregion, hcut, htime⟩ := hcovered part.start hwindow
    exact hout region hregion hcut htime

theorem ofRegions_eq_nil (h : ∀ region ∈ regions, ¬region.IsCut) : ofRegions regions = [] := by
  refine List.eq_nil_iff_forall_not_mem.mpr fun cut hcut => ?_
  obtain ⟨region, hregion, henabled, hlt, -⟩ := mem_ofRegions.mp hcut
  exact h region hregion ⟨henabled, hlt⟩

/-- A time is in a run, by its place, when it is in one of the cuts. -/
theorem exists_mem_merge_placed (regions : List (RemovedRegion Float)) {time : Float} (htime : time.isNaN = false) :
    (∃ run ∈ (merge regions).map placed, (place time : Rat) ∈ run) ↔
      ∃ region ∈ regions, region.IsCut ∧ region.start ≤ time ∧ time < region.stop := by
  have hplaced : ∀ region : RemovedRegion Float, region.start < region.stop →
      (region.start ≤ time ∧ time < region.stop ↔ (place time : Rat) ∈ placed ⟨region.start, region.stop⟩) :=
    fun region hlt => mem_iff_placed (@isDefined_of_lt ⟨region.start, region.stop⟩ hlt) htime
  rw [(merge_placed regions).2.2]
  constructor
  · rintro ⟨_, hrun, hmem⟩
    obtain ⟨cut, hcut, rfl⟩ := List.mem_map.mp hrun
    obtain ⟨region, hregion, henabled, hlt, rfl⟩ := mem_ofRegions.mp hcut
    exact ⟨region, hregion, ⟨henabled, hlt⟩, (hplaced region hlt).mpr hmem⟩
  · rintro ⟨region, hregion, ⟨henabled, hlt⟩, hmem⟩
    have hcut := mem_ofRegions.mpr ⟨region, hregion, henabled, hlt, rfl⟩
    exact ⟨_, List.mem_map_of_mem hcut, (hplaced region hlt).mp hmem⟩

/-- The walk over the runs leaves what is left of the window. -/
theorem isRemainder_keptFrom (hwindow : window.IsDefined) :
    IsRemainder window regions (keptFrom window.start window.stop (merge regions)) := by
  obtain ⟨hruns, hseparated, -⟩ := merge_placed regions
  obtain ⟨hdefined, hmap⟩ := keptFrom_placed hwindow.start hwindow.stop hruns
  have hparts := separated_keptFrom hseparated (place window.start) (place window.stop)
  have hinside := keptFrom_inside hseparated (place window.start) (place window.stop)
  have htimes := exists_mem_keptFrom hseparated (place window.start) (place window.stop)
  rw [← hmap] at hparts hinside htimes
  generalize keptFrom window.start window.stop (merge regions) = parts at *
  refine ⟨fun part hpart => ?_, fun part hpart => ⟨?_, ?_⟩, ?_, fun time => ?_⟩
  · have hdefined := hdefined part hpart
    exact (lt_iff_placed hdefined.start hdefined.stop).mpr (hparts.positive _ (List.mem_map_of_mem hpart))
  · exact (le_iff_placed hwindow.start (hdefined part hpart).start).mpr (hinside _ (List.mem_map_of_mem hpart)).1
  · exact (le_iff_placed (hdefined part hpart).stop hwindow.stop).mpr (hinside _ (List.mem_map_of_mem hpart)).2
  · refine (List.pairwise_map.mp hparts.apart).imp_of_mem fun {before after} hbefore hafter hlt => ?_
    exact (lt_iff_placed (hdefined before hbefore).stop (hdefined after hafter).start).mpr hlt
  · by_cases htime : time.isNaN = false
    · -- a time that is not undefined is in an interval when its place is
      have hkept : (∃ part ∈ parts, time ∈ part) ↔ ∃ part ∈ parts.map placed, (place time : Rat) ∈ part := by
        simp only [List.mem_map, exists_exists_and_eq_and]
        exact exists_congr fun part => and_congr_right fun hpart => mem_iff_placed (hdefined part hpart) htime
      have hout : (∀ run ∈ (merge regions).map placed, (place time : Rat) ∉ run) ↔
          ∀ region ∈ regions, region.IsCut → ¬(region.start ≤ time ∧ time < region.stop) := by
        have hnone := not_congr (exists_mem_merge_placed regions htime)
        simpa only [not_exists, not_and] using hnone
      rw [hkept, htimes, hout]
      exact and_congr (mem_iff_placed hwindow htime).symm Iff.rfl
    · exact iff_of_false (fun ⟨part, _, hmem⟩ => htime (isNaN_of_mem hmem)) fun h => htime (isNaN_of_mem h.1)

/-- Without a cut a window is kept as it is. Else what is left of it is kept, and nothing is left
when the cuts cover the window or when it is empty. -/
theorem kept_isRemainder (hwindow : window.IsDefined) (regions : List (RemovedRegion Float)) :
    ((∀ region ∈ regions, ¬region.IsCut) → kept window regions = [window]) ∧
      ((∃ region ∈ regions, region.IsCut) → IsRemainder window regions (kept window regions) ∧
        (kept window regions = [] ↔
          ∀ time ∈ window, ∃ region ∈ regions, region.IsCut ∧ region.start ≤ time ∧ time < region.stop)) := by
  constructor
  · intro hnone
    rw [kept, merge, ofRegions_eq_nil hnone, List.mergeSort_nil]
  · rintro ⟨region, hregion, henabled, hlt⟩
    have hkept : kept window regions = keptFrom window.start window.stop (merge regions) := by
      have hstart := (isNaN_of_lt hlt).1
      obtain ⟨run, hrun, -⟩ := (exists_mem_merge_placed regions hstart).mpr
        ⟨region, hregion, ⟨henabled, hlt⟩, (le_iff_place hstart hstart).mpr le_rfl, hlt⟩
      rw [kept]
      split
      · rename_i heq
        rw [heq] at hrun
        exact absurd hrun List.not_mem_nil
      · rfl
    have hremainder : IsRemainder window regions (kept window regions) := hkept ▸ isRemainder_keptFrom hwindow
    exact ⟨hremainder, hremainder.eq_nil_iff⟩

/-- Regions out of order that overlap, that is disabled, and that reaches over the end of the window. -/
def tangled : List (RemovedRegion Float) :=
  [⟨4.0, 6.0, true⟩, ⟨1.0, 3.0, false⟩, ⟨2.0, 5.0, true⟩, ⟨9.5, 12.0, true⟩]

theorem kept_isRemainder_tangled :
    (⟨0.0, 10.0⟩ : Interval Float).IsDefined ∧ (∃ region ∈ tangled, region.IsCut) ∧
      IsRemainder ⟨0.0, 10.0⟩ tangled (kept ⟨0.0, 10.0⟩ tangled) := by
  have hwindow : (⟨0.0, 10.0⟩ : Interval Float).IsDefined := ⟨by decide +kernel, by decide +kernel⟩
  have hcut : ∃ region ∈ tangled, region.IsCut := ⟨⟨4.0, 6.0, true⟩, List.mem_cons_self, rfl, by decide +kernel⟩
  exact ⟨hwindow, hcut, ((kept_isRemainder hwindow tangled).2 hcut).1⟩

end Interval

end Segue
