import Segue.Cue.Sheet
import Segue.Proofs.Double.Arithmetic
import Segue.Proofs.Project.Finite
import Segue.Proofs.Sorting

/-!
The markers of a track in a mix. Main statement: those inside its window are listed in order of
time, and as late after its start as they are in the window.
-/

namespace Segue

open Segue.Double

namespace Double

variable {x y z : Float}

/-- What lies at or behind a mark of one scale is put at or behind a start by as much. -/
theorem le_add_sub (hx : x.isFinite = true) (hy : y.isFinite = true) (hz : z.isFinite = true)
    (h : (z + (y - x)).isFinite = true) (hle : x ≤ y) : z ≤ z + (y - x) := by
  have hdifference := (finite_of_add h).2
  have hpositive : 0 ≤ units (y - x) := by
    rw [units_sub hy hx hdifference]
    refine nearestUnits_zero.symm.trans_le (nearestUnits_mono ?_)
    exact Int.sub_nonneg_of_le ((le_iff_units hx hy).mp hle)
  rw [le_iff_units hz h, units_add hz hdifference h, ← nearestUnits_units hz]
  refine nearestUnits_mono ?_
  rw [nearestUnits_units hz]
  exact Int.le_add_of_nonneg_right hpositive

/-- A later time of one scale is put later behind a start. -/
theorem add_sub_mono {later : Float} (hx : x.isFinite = true) (hy : y.isFinite = true) (hlater : later.isFinite = true)
    (hz : z.isFinite = true) (h : (z + (y - x)).isFinite = true) (h' : (z + (later - x)).isFinite = true)
    (hle : y ≤ later) : z + (y - x) ≤ z + (later - x) := by
  have hdifference := (finite_of_add h).2
  have hdifference' := (finite_of_add h').2
  rw [le_iff_units h h', units_add hz hdifference h, units_add hz hdifference' h', units_sub hy hx hdifference,
    units_sub hlater hx hdifference']
  refine nearestUnits_mono (Int.add_le_add_left (nearestUnits_mono ?_) _)
  exact Int.sub_le_sub_right ((le_iff_units hy hlater).mp hle) _

end Double

namespace Track

/-- The cue points of a track that are markers from the start of its window to its end. -/
def insideMarkers (track : Track Float) : List (CuePoint Float) :=
  track.cuePoints.filter fun cue =>
    cue.kind.isTrim = false ∧ track.window.1 ≤ cue.time ∧ cue.time ≤ track.window.2

variable {track : Track Float}

theorem isFinite_window (h : ∀ number ∈ track.numbers, Scalar.isFinite number = true) :
    track.window.1.isFinite = true := by
  cases hstart : track.trimStart with
  | none =>
      have hzero : (Float.ofNat 0).isFinite = true := by decide +kernel
      rw [window, hstart]
      exact hzero
  | some start =>
      rw [window, hstart]
      exact h start (by simp [numbers, hstart])

theorem isFinite_of_mem_insideMarkers (h : ∀ number ∈ track.numbers, Scalar.isFinite number = true) {time : Float}
    (htime : time ∈ track.insideMarkers.map CuePoint.time) : time.isFinite = true := by
  obtain ⟨cue, hcue, rfl⟩ := List.mem_map.mp htime
  have hmem : cue.time ∈ track.cuePoints.map CuePoint.time := List.mem_map_of_mem (List.mem_filter.mp hcue).1
  exact h cue.time (by simp only [numbers, List.mem_cons, List.mem_append, hmem, or_true])

theorem markerTimes_eq (start : Float) :
    track.markerTimes start =
      ((track.insideMarkers.map CuePoint.time).mergeSort Scalar.sortsBefore).map
        fun time => start + (time - track.window.1) := by
  have hinside : ((track.cuePoints.filter fun cue => !cue.kind.isTrim).map CuePoint.time).filter
      (fun time => decide (track.window.1 ≤ time) && decide (time ≤ track.window.2)) =
      track.insideMarkers.map CuePoint.time := by
    rw [List.filter_map, List.filter_filter, insideMarkers]
    congr 1
    refine List.filter_congr fun cue _ => ?_
    simp [Bool.and_comm]
  rw [← hinside]
  rfl

theorem forall_mem_markerTimes {p : Float → Prop} {start : Float} :
    (∀ time ∈ track.markerTimes start, p time) ↔
      ∀ cue ∈ track.insideMarkers, p (start + (cue.time - track.window.1)) := by
  simp only [markerTimes_eq, List.forall_mem_map, List.mem_mergeSort]

/-- The markers inside the window are listed in order of time. -/
theorem exists_markerTimes (h : ∀ number ∈ track.numbers, Scalar.isFinite number = true) (start : Float) :
    ∃ times : List Float, times.Perm (track.insideMarkers.map CuePoint.time) ∧ times.Pairwise (· ≤ ·) ∧
      track.markerTimes start = times.map fun time => start + (time - track.window.1) := by
  have hperm := List.mergeSort_perm (track.insideMarkers.map CuePoint.time) Scalar.sortsBefore
  have hsorted := pairwise_mergeSort_key Scalar.floatKey (track.insideMarkers.map CuePoint.time)
  refine ⟨_, hperm, hsorted.imp_of_mem fun {first second} hfirst hsecond hbefore => ?_, markerTimes_eq start⟩
  have hfinite := isFinite_of_mem_insideMarkers h (hperm.mem_iff.mp hfirst)
  have hfinite' := isFinite_of_mem_insideMarkers h (hperm.mem_iff.mp hsecond)
  exact (le_iff_units hfinite hfinite').mpr (units_le_of_floatKey hfinite hfinite' hbefore)

/-- What is listed in order of time behind a start is in order in the mix, and not before the start. -/
theorem pairwise_shifted (h : ∀ number ∈ track.numbers, Scalar.isFinite number = true) {times : List Float}
    (hsorted : times.Pairwise (· ≤ ·)) (htimes : times ⊆ track.insideMarkers.map CuePoint.time) {start : Float}
    (hstart : start.isFinite = true)
    (hfinite : ∀ time ∈ times, (start + (time - track.window.1)).isFinite = true) :
    (start :: times.map fun time => start + (time - track.window.1)).Pairwise (· ≤ ·) := by
  have hwindow := isFinite_window h
  refine List.pairwise_cons.mpr ⟨List.forall_mem_map.mpr fun time htime => ?_, List.pairwise_map.mpr ?_⟩
  · obtain ⟨cue, hcue, rfl⟩ := List.mem_map.mp (htimes htime)
    have hinside := (of_decide_eq_true (List.mem_filter.mp hcue).2).2.1
    exact le_add_sub hwindow (isFinite_of_mem_insideMarkers h (htimes htime)) hstart (hfinite _ htime) hinside
  · refine hsorted.imp_of_mem fun {first second} hfirst hsecond hle => ?_
    exact add_sub_mono hwindow (isFinite_of_mem_insideMarkers h (htimes hfirst))
      (isFinite_of_mem_insideMarkers h (htimes hsecond)) hstart (hfinite _ hfirst) (hfinite _ hsecond) hle

end Track

end Segue
