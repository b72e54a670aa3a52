import Segue.Proofs.Interval.Remainder

/-!
What is kept, without rounding. Main statement: the kept parts are as long as the window less what the
runs overlap of it, and so they are shorter than the window when a region cuts into it.
-/

namespace Segue.Interval

@[simp] theorem length_rat (interval : Interval Rat) : interval.length = max 0 (interval.stop - interval.start) :=
  Scalar.atLeast_rat _ _

theorem length_of_le {interval : Interval Rat} (h : interval.start ≤ interval.stop) :
    interval.length = interval.stop - interval.start := by
  rw [length_rat, max_eq_right (sub_nonneg.mpr h)]

theorem totalLength_nil : totalLength ([] : List (Interval Rat)) = 0 := Scalar.total_rat []

theorem totalLength_cons (interval : Interval Rat) (rest : List (Interval Rat)) :
    totalLength (interval :: rest) = interval.length + totalLength rest := by
  rw [totalLength, totalLength, Scalar.total_rat, Scalar.total_rat, List.map_cons, List.sum_cons]

theorem totalLength_singleton (interval : Interval Rat) : totalLength [interval] = interval.length := by
  rw [totalLength_cons, totalLength_nil, add_zero]

theorem totalLength_append (before after : List (Interval Rat)) :
    totalLength (before ++ after) = totalLength before + totalLength after := by
  simp only [totalLength, Scalar.total_rat, List.map_append, List.sum_append]

theorem totalLength_between (start stop : Rat) : totalLength (between start stop) = max 0 (stop - start) := by
  rw [between]
  split
  · rw [totalLength_singleton, length_rat]
  · rw [totalLength_nil, max_eq_left (sub_nonpos.mpr (not_lt.mp ‹_›))]

/-- How long a run and a window have in common. -/
def overlap (window run : Interval Rat) : Rat :=
  max 0 (min run.stop window.stop - max run.start window.start)

theorem overlap_of_before {window run : Interval Rat} (h : run.stop ≤ window.start) : overlap window run = 0 := by
  refine max_eq_left (sub_nonpos.mpr ?_)
  exact le_trans (min_le_left _ _) (le_trans h (le_max_right _ _))

theorem overlap_of_after {window run : Interval Rat} (h : window.stop ≤ run.start) : overlap window run = 0 := by
  refine max_eq_left (sub_nonpos.mpr ?_)
  exact le_trans (min_le_right _ _) (le_trans h (le_max_left _ _))

theorem overlap_pos {window run : Interval Rat} :
    0 < overlap window run ↔ ∃ time, time ∈ run ∧ time ∈ window := by
  simp only [overlap, lt_max_iff, lt_irrefl, false_or, sub_pos, lt_min_iff, max_lt_iff, mem_iff]
  constructor
  · rintro ⟨⟨hrun, hwindow⟩, hrun', hwindow'⟩
    exact ⟨max run.start window.start, ⟨le_max_left _ _, max_lt hrun hwindow⟩, le_max_right _ _,
      max_lt hrun' hwindow'⟩
  · rintro ⟨time, ⟨hrun, hrun'⟩, hwindow, hwindow'⟩
    exact ⟨⟨lt_of_le_of_lt hrun hrun', lt_of_le_of_lt hwindow hrun'⟩, lt_of_le_of_lt hrun hwindow',
      lt_of_le_of_lt hwindow hwindow'⟩

/-- What a window has before a run that it reaches, what it has in common with the run, and what it
has behind it. -/
theorem length_split {cursor windowEnd : Rat} {run : Interval Rat} (hpositive : run.start < run.stop)
    (hstart : run.start < windowEnd) (hreached : cursor < run.stop) :
    max 0 (run.start - cursor) + overlap ⟨cursor, windowEnd⟩ run + max 0 (windowEnd - run.stop) =
      max 0 (windowEnd - cursor) := by
  have hbehind : min run.stop windowEnd + max 0 (windowEnd - run.stop) = windowEnd := by
    rcases le_total run.stop windowEnd with h | h
    · rw [min_eq_left h, max_eq_right (sub_nonneg.mpr h), add_sub_cancel]
    · rw [min_eq_right h, max_eq_left (sub_nonpos.mpr h), add_zero]
  rcases le_total cursor run.start with hgap | hgap
  · have hwindow : cursor ≤ windowEnd := hgap.trans (le_of_lt hstart)
    rw [overlap, max_eq_left hgap, max_eq_right (sub_nonneg.mpr hgap), max_eq_right (sub_nonneg.mpr hwindow),
      max_eq_right (sub_nonneg.mpr (le_of_lt (lt_min hpositive hstart)))]
    linarith only [hbehind]
  · rw [overlap, max_eq_right hgap, max_eq_left (sub_nonpos.mpr hgap), zero_add]
    rcases le_total cursor windowEnd with h | h
    · rw [max_eq_right (sub_nonneg.mpr (le_min (le_of_lt hreached) h)), max_eq_right (sub_nonneg.mpr h)]
      linarith only [hbehind]
    · have hstop : windowEnd ≤ run.stop := h.trans (le_of_lt hreached)
      rw [min_eq_right hstop, max_eq_left (sub_nonpos.mpr h), max_eq_left (sub_nonpos.mpr hstop), add_zero]

/-- What is kept between a time and the end of the window, and what the runs overlap there, are
together as long as the window is from that time on. -/
theorem totalLength_keptFrom {runs : List (Interval Rat)} (hruns : Separated runs) (cursor windowEnd : Rat) :
    totalLength (keptFrom cursor windowEnd runs) + (runs.map (overlap ⟨cursor, windowEnd⟩)).sum =
      max 0 (windowEnd - cursor) := by
  induction runs generalizing cursor with
  | nil =>
      rw [keptFrom, totalLength_between, List.map_nil, List.sum_nil, add_zero]
  | cons run rest ih =>
      obtain ⟨hbehind, -⟩ := List.pairwise_cons.mp hruns.apart
      have hpositive := hruns.positive run List.mem_cons_self
      rw [List.map_cons, List.sum_cons]
      -- the first run lies behind the window, before the cursor, or reaches into what is left
      rcases le_or_gt windowEnd run.start with hafter | hstart
      · have hrest : (rest.map (overlap ⟨cursor, windowEnd⟩)).sum = 0 := by
          refine List.sum_eq_zero fun length hlength => ?_
          obtain ⟨other, hother, rfl⟩ := List.mem_map.mp hlength
          exact overlap_of_after (le_trans hafter (le_of_lt (hpositive.trans (hbehind other hother))))
        rw [keptFrom_of_after rest hafter, totalLength_between, overlap_of_after hafter, hrest, add_zero, add_zero]
      · rcases le_or_gt run.stop cursor with hbefore | hreached
        · rw [keptFrom_of_before rest hstart hbefore, overlap_of_before hbefore, zero_add]
          exact ih hruns.tail cursor
        · have hrest : (rest.map (overlap ⟨cursor, windowEnd⟩)).sum =
              (rest.map (overlap ⟨run.stop, windowEnd⟩)).sum := by
            refine congrArg List.sum (List.map_congr_left fun other hother => ?_)
            have hother := hbehind other hother
            simp only [overlap]
            rw [max_eq_left (le_of_lt hother), max_eq_left (le_of_lt (hreached.trans hother))]
          rw [keptFrom_of_reached rest hstart hreached, totalLength_append, totalLength_between, hrest,
            ← length_split hpositive hstart hreached, ← ih hruns.tail run.stop]
          exact add_add_add_comm _ _ _ _

/-- The kept parts are as long as the window, less what the runs overlap of it. -/
theorem totalLength_kept (window : Interval Rat) (regions : List (RemovedRegion Rat)) :
    totalLength (kept window regions) + ((merge regions).map (overlap window)).sum = window.length := by
  have hruns := separated_merge regions
  rw [kept]
  split
  · rename_i heq
    rw [heq, totalLength_singleton, List.map_nil, List.sum_nil, add_zero]
  · rw [length_rat]
    exact totalLength_keptFrom hruns window.start window.stop

/-- Nothing is missing from a window when no enabled region of positive length holds any of its
times. -/
theorem totalLength_kept_eq_iff (window : Interval Rat) (regions : List (RemovedRegion Rat)) :
    totalLength (kept window regions) = window.length ↔
      ∀ interval ∈ ofRegions regions, ∀ time ∈ interval, time ∉ window := by
  have htotal := totalLength_kept window regions
  have hnonneg : ∀ length ∈ (merge regions).map (overlap window), 0 ≤ length := by
    intro length hlength
    obtain ⟨run, -, rfl⟩ := List.mem_map.mp hlength
    exact le_max_left _ _
  have hsum : totalLength (kept window regions) = window.length ↔
      ((merge regions).map (overlap window)).sum = 0 := by
    rw [← htotal]
    exact left_eq_add
  rw [hsum]
  constructor
  · intro hzero interval hinterval time htime hwindow
    obtain ⟨run, hrun, htime⟩ := (exists_mem_merge regions time).mpr ⟨interval, hinterval, htime⟩
    have hpositive := overlap_pos.mpr ⟨time, htime, hwindow⟩
    have hoverlap := List.all_zero_of_le_zero_le_of_sum_eq_zero hnonneg hzero (List.mem_map_of_mem hrun)
    exact absurd hoverlap (ne_of_gt hpositive)
  · intro hdisjoint
    refine List.sum_eq_zero fun length hlength => ?_
    obtain ⟨run, hrun, rfl⟩ := List.mem_map.mp hlength
    by_contra hne
    obtain ⟨time, htime, hwindow⟩ := overlap_pos.mp (lt_of_le_of_ne (hnonneg _ hlength) (Ne.symm hne))
    obtain ⟨interval, hinterval, htime⟩ := (exists_mem_merge regions time).mp ⟨run, hrun, htime⟩
    exact hdisjoint interval hinterval time htime hwindow

end Segue.Interval
