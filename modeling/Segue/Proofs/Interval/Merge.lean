import Segue.Interval
import Segue.Proofs.Exact
import Segue.Proofs.Sorting

/-!
Merging without rounding. Main statement: the runs are in order with gaps between them, and a time is in
one of them when an enabled region of positive length holds it.
-/

namespace Segue.Interval

theorem mem_iff {interval : Interval Rat} {time : Rat} :
    time ∈ interval ↔ interval.start ≤ time ∧ time < interval.stop := Iff.rfl

/-- Intervals of positive length, each one behind the one before it and apart from it. -/
structure Separated (intervals : List (Interval Rat)) : Prop where
  positive : ∀ interval ∈ intervals, interval.start < interval.stop
  apart : intervals.Pairwise fun before after => before.stop < after.start

theorem Separated.tail {first : Interval Rat} {rest : List (Interval Rat)} (h : Separated (first :: rest)) :
    Separated rest where
  positive interval hmem := h.positive interval (List.mem_cons_of_mem _ hmem)
  apart := h.apart.tail

theorem coalesce_of_le {run next : Interval Rat} (rest : List (Interval Rat)) (h : next.start ≤ run.stop) :
    coalesce run (next :: rest) = coalesce { run with stop := max run.stop next.stop } rest := by
  rw [coalesce, if_pos h, Scalar.larger_rat]

theorem coalesce_of_lt {run next : Interval Rat} (rest : List (Interval Rat)) (h : run.stop < next.start) :
    coalesce run (next :: rest) = run :: coalesce next rest := by
  rw [coalesce, if_neg (not_le.mpr h)]

/-- Intervals in order of their starts are merged into separated runs, none of which starts early. -/
theorem separated_coalesce {run : Interval Rat} {rest : List (Interval Rat)} (hrun : run.start < run.stop)
    (hpositive : ∀ interval ∈ rest, interval.start < interval.stop)
    (hsorted : (run :: rest).Pairwise fun a b => a.start ≤ b.start) :
    Separated (coalesce run rest) ∧ ∀ interval ∈ coalesce run rest, run.start ≤ interval.start := by
  induction rest generalizing run with
  | nil =>
      refine ⟨⟨?_, List.pairwise_singleton _ _⟩, ?_⟩
      · intro interval hmem
        rw [List.mem_singleton.mp hmem]
        exact hrun
      · intro interval hmem
        rw [List.mem_singleton.mp hmem]
  | cons next rest ih =>
      obtain ⟨hstarts, hrest⟩ := List.pairwise_cons.mp hsorted
      have hpositive' : ∀ interval ∈ rest, interval.start < interval.stop := fun interval hmem =>
        hpositive interval (List.mem_cons_of_mem _ hmem)
      by_cases hle : next.start ≤ run.stop
      · rw [coalesce_of_le rest hle]
        have hmerged : ({ run with stop := max run.stop next.stop } :: rest).Pairwise
            fun a b => a.start ≤ b.start :=
          List.pairwise_cons.mpr ⟨fun interval hmem => hstarts interval (List.mem_cons_of_mem _ hmem), hrest.tail⟩
        exact ih (lt_max_of_lt_left hrun) hpositive' hmerged
      · have hlt : run.stop < next.start := not_le.mp hle
        obtain ⟨hseparated, hbounds⟩ := ih (hpositive next List.mem_cons_self) hpositive' hrest
        rw [coalesce_of_lt rest hlt]
        refine ⟨⟨?_, ?_⟩, ?_⟩
        · intro interval hmem
          rcases List.mem_cons.mp hmem with rfl | hmem
          · exact hrun
          · exact hseparated.positive interval hmem
        · exact List.pairwise_cons.mpr
            ⟨fun interval hmem => lt_of_lt_of_le hlt (hbounds interval hmem), hseparated.apart⟩
        · intro interval hmem
          rcases List.mem_cons.mp hmem with rfl | hmem
          · exact le_refl _
          · exact le_trans (hstarts next List.mem_cons_self) (hbounds interval hmem)

/-- Merging intervals in order of their starts adds no time and loses none. -/
theorem exists_mem_coalesce {run : Interval Rat} {rest : List (Interval Rat)}
    (hsorted : (run :: rest).Pairwise fun a b => a.start ≤ b.start) (time : Rat) :
    (∃ interval ∈ coalesce run rest, time ∈ interval) ↔ ∃ interval ∈ run :: rest, time ∈ interval := by
  induction rest generalizing run with
  | nil => rfl
  | cons next rest ih =>
      obtain ⟨hstarts, hrest⟩ := List.pairwise_cons.mp hsorted
      by_cases hle : next.start ≤ run.stop
      · have hmerged : ({ run with stop := max run.stop next.stop } :: rest).Pairwise
            fun a b => a.start ≤ b.start :=
          List.pairwise_cons.mpr ⟨fun interval hmem => hstarts interval (List.mem_cons_of_mem _ hmem), hrest.tail⟩
        have hnext := hstarts next List.mem_cons_self
        have hunion : time ∈ ({ run with stop := max run.stop next.stop } : Interval Rat) ↔
            time ∈ run ∨ time ∈ next := by
          simp only [mem_iff, lt_max_iff]
          constructor
          · rintro ⟨hstart, hstop | hstop⟩
            · exact Or.inl ⟨hstart, hstop⟩
            · rcases lt_or_ge time run.stop with h | h
              · exact Or.inl ⟨hstart, h⟩
              · exact Or.inr ⟨le_trans hle h, hstop⟩
          · rintro (⟨hstart, hstop⟩ | ⟨hstart, hstop⟩)
            · exact ⟨hstart, Or.inl hstop⟩
            · exact ⟨le_trans hnext hstart, Or.inr hstop⟩
        rw [coalesce_of_le rest hle, ih hmerged, List.exists_mem_cons_iff, List.exists_mem_cons_iff,
          List.exists_mem_cons_iff, hunion, or_assoc]
      · rw [coalesce_of_lt rest (not_le.mp hle), List.exists_mem_cons_iff, ih hrest,
          List.exists_mem_cons_iff (a := run)]

theorem mem_ofRegions {α : Type} [Scalar α] {regions : List (RemovedRegion α)} {interval : Interval α} :
    interval ∈ ofRegions regions ↔ ∃ region ∈ regions, region.enabled = true ∧ region.start < region.stop ∧
      { start := region.start, stop := region.stop } = interval := by
  simp only [ofRegions, List.mem_map, List.mem_filter, Bool.and_eq_true, decide_eq_true_eq, and_assoc]

/-- What is merged, in order of the starts. -/
theorem sorted_ofRegions (regions : List (RemovedRegion Rat)) :
    ((ofRegions regions).mergeSort fun a b => Scalar.sortsBefore a.start b.start).Pairwise
      fun a b => a.start ≤ b.start :=
  pairwise_mergeSort_key Interval.start (ofRegions regions)

theorem separated_merge (regions : List (RemovedRegion Rat)) : Separated (merge regions) := by
  have hsorted := sorted_ofRegions regions
  have hperm := List.mergeSort_perm (ofRegions regions) fun a b => Scalar.sortsBefore a.start b.start
  rw [merge]
  split
  · exact ⟨nofun, List.Pairwise.nil⟩
  · rename_i first rest heq
    rw [heq] at hsorted hperm
    have hpositive : ∀ interval ∈ first :: rest, interval.start < interval.stop := by
      intro interval hmem
      obtain ⟨region, -, -, hlt, rfl⟩ := mem_ofRegions.mp (hperm.mem_iff.mp hmem)
      exact hlt
    exact (separated_coalesce (hpositive first List.mem_cons_self)
      (fun interval hmem => hpositive interval (List.mem_cons_of_mem _ hmem)) hsorted).1

/-- A time is in one of the runs when an enabled region of positive length holds it. -/
theorem exists_mem_merge (regions : List (RemovedRegion Rat)) (time : Rat) :
    (∃ run ∈ merge regions, time ∈ run) ↔ ∃ interval ∈ ofRegions regions, time ∈ interval := by
  have hsorted := sorted_ofRegions regions
  have hperm := List.mergeSort_perm (ofRegions regions) fun a b => Scalar.sortsBefore a.start b.start
  have hmem : ∀ interval, interval ∈ (ofRegions regions).mergeSort
      (fun a b => Scalar.sortsBefore a.start b.start) ↔ interval ∈ ofRegions regions := fun _ => hperm.mem_iff
  rw [merge]
  split
  · rename_i heq
    simp only [heq] at hmem
    simp only [← hmem]
  · rename_i first rest heq
    rw [heq] at hsorted
    simp only [heq] at hmem
    rw [exists_mem_coalesce hsorted]
    simp only [hmem]

end Segue.Interval
