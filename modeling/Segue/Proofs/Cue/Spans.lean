import Segue.Proofs.Cue.Timeline

/-!
Where the markers of a track are in a mix, without rounding. Main statement: a marker that the cue
sheet shows is never before its track, and never behind it just when it is early enough in its
window for the tempo of the track.
-/

namespace Segue

namespace Track

variable {track : Track Rat} {start time : Rat}

/-- The times of its markers that a cue sheet shows of a track; it has numbers for so many of them. -/
def shownMarkers (track : Track Rat) (start : Rat) : List Rat := (track.markerTimes start).take (maxIndex - 1)

theorem mem_markerTimes :
    time ∈ track.markerTimes start ↔ ∃ cue ∈ track.cuePoints, cue.kind.isTrim = false ∧
      track.window.1 ≤ cue.time ∧ cue.time ≤ track.window.2 ∧ time = start + (cue.time - track.window.1) := by
  simp only [markerTimes, List.mem_map, List.mem_mergeSort, List.mem_filter, Bool.and_eq_true, decide_eq_true_eq,
    Bool.not_eq_true']
  constructor
  · rintro ⟨_, ⟨⟨cue, ⟨hcue, hkind⟩, rfl⟩, hinside, hinside'⟩, rfl⟩
    exact ⟨cue, hcue, hkind, hinside, hinside', rfl⟩
  · rintro ⟨cue, hcue, hkind, hinside, hinside', rfl⟩
    exact ⟨cue.time, ⟨⟨cue, ⟨hcue, hkind⟩, rfl⟩, hinside, hinside'⟩, rfl⟩

/-- Markers are as late behind the start as they are in the window. -/
theorem markerTimes_bounds (h : time ∈ track.markerTimes start) :
    start ≤ time ∧ time - start ≤ track.window.2 - track.window.1 := by
  obtain ⟨cue, -, -, hinside, hinside', rfl⟩ := mem_markerTimes.mp h
  constructor <;> linarith

/-- A time is inside the span of a track as long as the tempo of the track leaves room for it. -/
theorem le_effectiveDuration_iff (hbound : time - start ≤ track.window.2 - track.window.1) :
    time ≤ start + track.effectiveDuration ↔
      ∀ rate ∈ track.tempoChange?, (time - start) * rate ≤ track.window.2 - track.window.1 := by
  rw [← sub_le_iff_le_add', effectiveDuration_eq]
  cases hchange : track.tempoChange? with
  | none => exact iff_of_true hbound nofun
  | some rate =>
      have hpositive : 0 < rate := (Chain.positive_of_tempoChange? hchange).2
      calc time - start ≤ (track.window.2 - track.window.1) / rate
          ↔ (time - start) * rate ≤ track.window.2 - track.window.1 := le_div_iff₀ hpositive
        _ ↔ _ := by simp

/-- **Markers and spans.** Every marker that the cue sheet shows is as late behind the start of its
track as it is in the window. So all of them are inside the span of the track when its tempo leaves
room for each of them, and only then; and it does when the track is not played faster. -/
theorem shownMarkers_within_iff (track : Track Rat) (start : Rat) :
    (∀ time ∈ track.shownMarkers start, start ≤ time ∧ time ≤ start + (track.window.2 - track.window.1)) ∧
      ((∀ time ∈ track.shownMarkers start, start ≤ time ∧ time ≤ start + track.effectiveDuration) ↔
        ∀ rate ∈ track.tempoChange?, ∀ time ∈ track.shownMarkers start,
          (time - start) * rate ≤ track.window.2 - track.window.1) ∧
      ((∀ rate ∈ track.tempoChange?, rate ≤ 1) →
        ∀ time ∈ track.shownMarkers start, start ≤ time ∧ time ≤ start + track.effectiveDuration) := by
  have hbounds : ∀ time ∈ track.shownMarkers start,
      start ≤ time ∧ time - start ≤ track.window.2 - track.window.1 := fun time htime =>
    markerTimes_bounds (List.mem_of_mem_take htime)
  have hiff : (∀ time ∈ track.shownMarkers start, start ≤ time ∧ time ≤ start + track.effectiveDuration) ↔
      ∀ rate ∈ track.tempoChange?, ∀ time ∈ track.shownMarkers start,
        (time - start) * rate ≤ track.window.2 - track.window.1 := by
    constructor
    · intro hwithin rate hrate time htime
      exact (le_effectiveDuration_iff (hbounds time htime).2).mp (hwithin time htime).2 rate hrate
    · intro hroom time htime
      obtain ⟨hstart, hbound⟩ := hbounds time htime
      exact ⟨hstart, (le_effectiveDuration_iff hbound).mpr fun rate hrate => hroom rate hrate time htime⟩
  refine ⟨fun time htime => ?_, hiff, fun hslow => hiff.mpr fun rate hrate time htime => ?_⟩
  · obtain ⟨hstart, hbound⟩ := hbounds time htime
    exact ⟨hstart, sub_le_iff_le_add'.mp hbound⟩
  · obtain ⟨hstart, hbound⟩ := hbounds time htime
    calc (time - start) * rate ≤ (time - start) * 1 :=
          mul_le_mul_of_nonneg_left (hslow rate hrate) (sub_nonneg.mpr hstart)
      _ ≤ track.window.2 - track.window.1 := by rwa [mul_one]

end Track

namespace Project

/-- A track of two minutes played at twice its rate, with a marker at a hundred seconds, and another
one behind it. -/
def markedLate : Project Rat where
  version := "1.0"
  name := "Night"
  tracks := [
    { position := 0, title := "First", source := ⟨"first.wav"⟩, duration := 120, tempoRate := some 2
      cuePoints := [{ time := 100, label := none, kind := .marker }] },
    { position := 1, title := "Second", source := ⟨"second.wav"⟩, duration := 120 }]

/-- The cue sheet has the first track take a minute, and shows its marker forty seconds behind the
start of the second one. -/
theorem strays_markedLate :
    (CueSheet.ofProject markedLate (markedLate.transitions 0) "night.flac" .flac).tracks.map CueTrack.indexes =
        [[0, 100], [60]] ∧
      ∃ track ∈ markedLate.tracks, track.window.1 ≤ track.window.2 ∧ track.tempoRate = some 2 ∧
        ¬∀ time ∈ track.shownMarkers 0, (0 : Rat) ≤ time ∧ time ≤ 0 + track.effectiveDuration := by
  refine ⟨by decide +kernel, _, List.mem_cons_self, by decide +kernel, rfl, by decide +kernel⟩

end Project

end Segue
