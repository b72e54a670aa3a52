import Segue.Proofs.Cue.Timeline

/-!
How far the two timelines of a mix are apart, without rounding. Main statement: a track starts later
in the cue sheet than in the graph by what is cut out of the windows of the tracks before it, each
at its tempo.
-/

namespace Segue

/-- A start is the lengths of what comes before it, less the crossfades between them. -/
theorem getElem?_startsFrom {index : Nat} {durations : List Rat} (h : index < durations.length) (time : Rat)
    (crossfades : List Rat) :
    (startsFrom time durations crossfades)[index]? =
      some (time + (durations.take index).sum - (crossfades.take index).sum) := by
  induction durations generalizing index time crossfades with
  | nil => cases h
  | cons duration durations ih =>
      rw [startsFrom_cons]
      cases index with
      | zero => simp
      | succ index =>
          rw [List.getElem?_cons_succ, ih (Nat.lt_of_succ_lt_succ h), List.take_succ_cons, List.sum_cons]
          cases crossfades with
          | nil => simp [add_assoc]
          | cons crossfade crossfades =>
              rw [List.take_succ_cons, List.sum_cons, List.head?_cons, List.tail_cons, Option.getD_some]
              congr 1
              ring

namespace Track

/-- How much longer a track is in the cue sheet than in the graph: what is cut out of its window, at its
tempo. -/
def surplus (track : Track Rat) : Rat :=
  (track.window.2 - track.window.1 - Chain.cutLength track.kept) / track.tempoChange?.getD 1

theorem effectiveDuration_eq_chainLength_add {track : Track Rat} (hregion : track.tempoRegion = none) :
    track.effectiveDuration = track.chainLength + track.surplus := by
  rw [effectiveDuration_eq, surplus]
  cases hchange : track.tempoChange? with
  | none =>
      have hchain : track.chainLength = Chain.cutLength track.kept := by
        simp only [chainLength, hchange]
      rw [hchain, Option.getD_none, div_one, add_sub_cancel]
  | some rate =>
      have hchain : track.chainLength = Chain.cutLength track.kept / rate := by
        simp only [chainLength, hchange, hregion]
      rw [hchain, Option.getD_some, ← add_div, add_sub_cancel]

/-- Nothing is missing from a window that no enabled region meets. -/
theorem surplus_of_isWhole {track : Track Rat} (hwindow : track.window.1 < track.window.2) (hwhole : track.IsWhole) :
    track.surplus = 0 := by
  have htotal := (totalLength_kept_eq_iff hwindow).mpr hwhole
  have hkept : track.kept ≠ [] := by
    intro hnil
    rw [hnil, Interval.totalLength_nil] at htotal
    exact absurd htotal (ne_of_lt (sub_pos.mpr hwindow))
  rw [surplus, Chain.cutLength, if_neg (by simpa using hkept), htotal, sub_self, zero_div]

end Track

namespace Project

/-- The difference that the tracks before one make. -/
def drift (project : Project Rat) (index : Nat) : Rat := ((project.tracks.take index).map Track.surplus).sum

theorem sum_effectiveDuration {tracks : List (Track Rat)} (hregions : ∀ track ∈ tracks, track.tempoRegion = none) :
    (tracks.map Track.effectiveDuration).sum =
      (tracks.map Track.chainLength).sum + (tracks.map Track.surplus).sum := by
  rw [← List.sum_map_add]
  refine congrArg List.sum (List.map_congr_left fun track htrack => ?_)
  exact Track.effectiveDuration_eq_chainLength_add (hregions track htrack)

variable {project : Project Rat} (hregions : ∀ track ∈ project.tracks, track.tempoRegion = none)
include hregions

/-- Each start in the cue sheet is later by the drift than the one that the chains imply. -/
theorem startTimes_sub (transitions : List (Transition Rat)) {index : Nat} (hindex : index < project.tracks.length) :
    ∃ start implied, (project.startTimes transitions)[index]? = some start ∧
      (Segue.startTimes (project.tracks.map Track.chainLength) (transitions.map Transition.duration))[index]? =
        some implied ∧
      start - implied = project.drift index := by
  have hsum := sum_effectiveDuration fun track htrack => hregions track (List.mem_of_mem_take htrack (i := index))
  rw [List.map_take, List.map_take, List.map_take] at hsum
  refine ⟨_, _, getElem?_startsFrom ?_ 0 _, getElem?_startsFrom ?_ 0 _, ?_⟩
  · rwa [List.length_map]
  · rwa [List.length_map]
  · rw [hsum, drift, List.map_take]
    ring

theorem startTimes_eq_iff_drift (transitions : List (Transition Rat)) :
    project.startTimes transitions =
        Segue.startTimes (project.tracks.map Track.chainLength) (transitions.map Transition.duration) ↔
      ∀ index < project.tracks.length, project.drift index = 0 := by
  constructor
  · intro heq index hindex
    obtain ⟨start, implied, hstart, himplied, hdrift⟩ := startTimes_sub hregions transitions hindex
    rw [heq, himplied, Option.some.injEq] at hstart
    rw [← hdrift, hstart, sub_self]
  · intro hzero
    refine List.ext_getElem? fun index => ?_
    by_cases hindex : index < project.tracks.length
    · obtain ⟨start, implied, hstart, himplied, hdrift⟩ := startTimes_sub hregions transitions hindex
      rw [hstart, himplied, sub_eq_zero.mp (hdrift.trans (hzero index hindex))]
    · have hlength : (project.startTimes transitions).length = project.tracks.length :=
        (length_startsFrom _ _ _).trans (List.length_map _)
      have hlength' : (Segue.startTimes (project.tracks.map Track.chainLength)
          (transitions.map Transition.duration)).length = project.tracks.length :=
        (length_startsFrom _ _ _).trans (List.length_map _)
      rw [List.getElem?_eq_none (by omega), List.getElem?_eq_none (by omega)]

omit hregions in
theorem drift_of_isWhole (hwhole : ∀ track ∈ project.tracks, track.window.1 < track.window.2 ∧ track.IsWhole)
    (index : Nat) : project.drift index = 0 := by
  refine List.sum_eq_zero fun surplus hsurplus => ?_
  obtain ⟨track, htrack, rfl⟩ := List.mem_map.mp hsurplus
  obtain ⟨hwindow, hwhole⟩ := hwhole track (List.mem_of_mem_take htrack)
  exact Track.surplus_of_isWhole hwindow hwhole

/-- The cue sheet has a track start later than the graph implies by the sum of what is cut out of
the windows of the tracks before it, each at its tempo. So the two agree when every such sum is
zero, and only then; and they do when nothing is cut out of any window. -/
theorem startTimes_sub_implied [Decibels Rat] (normalizes : Bool) (default : Rat) (htracks : project.tracks ≠ [])
    (hword : project.tracks.length ≤ 2 ^ 64) :
    ∃ mix implied, MixGraph.ofChains (project.chains normalizes) (project.transitions default) = .ok mix ∧
      mix.startTimes? (project.tracks.map Track.chainLength) = some implied ∧
      (∀ index < project.tracks.length, ∃ start start',
        (project.startTimes (project.transitions default))[index]? = some start ∧
          implied[index]? = some start' ∧ start - start' = project.drift index) ∧
      (project.startTimes (project.transitions default) = implied ↔
        ∀ index < project.tracks.length, project.drift index = 0) ∧
      ((∀ track ∈ project.tracks, track.window.1 < track.window.2 ∧ track.IsWhole) →
        project.startTimes (project.transitions default) = implied) := by
  obtain ⟨mix, -, hmix, -, -⟩ := project.ofChains_chains normalizes default htracks hword fun _ _ _ _ => rfl
  have hiff := startTimes_eq_iff_drift hregions (project.transitions default)
  refine ⟨mix, _, hmix, startTimes?_of_ofChains hmix, ?_, hiff, ?_⟩
  · exact fun index hindex => startTimes_sub hregions _ hindex
  · exact fun hwhole => hiff.mpr fun index _ => drift_of_isWhole hwhole index

/-- Three tracks of two minutes. Fifteen seconds are cut out of the first, which is played at twice
its rate and overlaps the second by four seconds; of the second only what is behind its window is
cut out. -/
def spedUp : Project Rat where
  version := "1.0"
  name := "Night"
  tracks := [
    { position := 0, title := "First", source := ⟨"first.wav"⟩, duration := 120, tempoRate := some 2
      removed := [{ start := 30, stop := 45 }], crossfade := some 4 },
    { position := 1, title := "Second", source := ⟨"second.wav"⟩, duration := 120, trimEnd := some 100
      removed := [{ start := 100, stop := 110 }] },
    { position := 2, title := "Third", source := ⟨"third.wav"⟩, duration := 120 }]

omit hregions in
theorem startTimes_sub_implied_spedUp :
    (∀ track ∈ spedUp.tracks, track.tempoRegion = none) ∧ spedUp.tracks ≠ [] ∧ spedUp.tracks.length ≤ 2 ^ 64 ∧
      ∃ mix implied,
        MixGraph.ofChains (@Project.chains Rat _ withoutGain spedUp false) (spedUp.transitions 0) = .ok mix ∧
        mix.startTimes? (spedUp.tracks.map Track.chainLength) = some implied ∧
        (∀ index < spedUp.tracks.length, ∃ start start',
          (spedUp.startTimes (spedUp.transitions 0))[index]? = some start ∧
            implied[index]? = some start' ∧ start - start' = spedUp.drift index) ∧
        (spedUp.startTimes (spedUp.transitions 0) = implied ↔
          ∀ index < spedUp.tracks.length, spedUp.drift index = 0) ∧
        ((∀ track ∈ spedUp.tracks, track.window.1 < track.window.2 ∧ track.IsWhole) →
          spedUp.startTimes (spedUp.transitions 0) = implied) := by
  have hregions : ∀ track ∈ spedUp.tracks, track.tempoRegion = none := by simp [spedUp]
  have htracks : spedUp.tracks ≠ [] := List.cons_ne_nil _ _
  have hword : spedUp.tracks.length ≤ 2 ^ 64 := by decide
  exact ⟨hregions, htracks, hword, @startTimes_sub_implied spedUp hregions withoutGain false 0 htracks hword⟩

end Project

end Segue
