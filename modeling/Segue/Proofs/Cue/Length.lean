import Segue.Mixing.Encoding
import Segue.Proofs.Cue.Drift

/-!
How long a mix is, without rounding. Main statement: the cue sheet has the last track end where the
estimated length of the mix does, as long as that is not before its start; and the tracks start in
their order just when no crossfade is longer than the track before it.
-/

namespace Segue

/-- The last of some tracks starts behind all the others, less the crossfades between them. -/
theorem getLast?_startTimes {front crossfades : List Rat} (h : crossfades.length = front.length) (last : Rat) :
    (startTimes (front ++ [last]) crossfades).getLast? = some (front.sum - crossfades.sum) := by
  have hlength : (startTimes (front ++ [last]) crossfades).length = front.length + 1 := by
    rw [startTimes, length_startsFrom, List.length_append, List.length_singleton]
  have hplace : front.length < (front ++ [last]).length := by
    rw [List.length_append, List.length_singleton]
    exact Nat.lt_succ_self _
  rw [List.getLast?_eq_getElem?, hlength, Nat.add_sub_cancel, startTimes, getElem?_startsFrom hplace,
    List.take_left, List.take_of_length_le h.le, zero_add]

/-- A later track starts when the one before it has lasted, less the crossfade between them. -/
theorem getElem?_succ_startsFrom {index : Nat} {durations crossfades : List Rat} {time next : Rat}
    (h : (startsFrom time durations crossfades)[index + 1]? = some next) :
    ∃ start duration, (startsFrom time durations crossfades)[index]? = some start ∧
      durations[index]? = some duration ∧ next = start + (duration - crossfades[index]?.getD 0) := by
  induction index generalizing durations crossfades time with
  | zero =>
      match durations, h with
      | duration :: following :: durations, h =>
          refine ⟨time, duration, rfl, rfl, ?_⟩
          rw [startsFrom_cons, List.getElem?_cons_succ, startsFrom_cons, List.getElem?_cons_zero] at h
          rw [← Option.some.inj h, List.head?_eq_getElem?]
  | succ index ih =>
      match durations, h with
      | duration :: durations, h =>
          rw [startsFrom_cons, List.getElem?_cons_succ] at h
          obtain ⟨start, duration', hstart, hduration, hnext⟩ := ih h
          refine ⟨start, duration', ?_, hduration, ?_⟩
          · rwa [startsFrom_cons, List.getElem?_cons_succ]
          · rwa [List.getElem?_tail] at hnext

namespace Project

variable {project : Project Rat} {default : Rat}

/-- Behind the first one each track starts when the one before it has lasted, less the crossfade out
of that. -/
theorem getElem?_succ_startTimes {index : Nat} {next : Rat}
    (h : (project.startTimes (project.transitions default))[index + 1]? = some next) :
    ∃ start track transition, (project.startTimes (project.transitions default))[index]? = some start ∧
      project.tracks[index]? = some track ∧ (project.transitions default)[index]? = some transition ∧
        next = start + (track.effectiveDuration - transition.duration) := by
  obtain ⟨start, duration, hstart, hduration, hnext⟩ := getElem?_succ_startsFrom h
  rw [List.getElem?_map, Option.map_eq_some_iff] at hduration
  obtain ⟨track, htrack, rfl⟩ := hduration
  have hplace : index < project.tracks.length - 1 := by
    obtain ⟨hlt, -⟩ := List.getElem?_eq_some_iff.mp h
    rw [Project.startTimes, Segue.startTimes, length_startsFrom, List.length_map] at hlt
    omega
  have htransition : (project.transitions default)[index]? =
      some ⟨Scalar.atLeast 0 (track.crossfade.getD default), track.curve.getD .linear⟩ := by
    rw [transitions, List.getElem?_map, List.getElem?_dropLast, if_pos hplace, htrack]
    rfl
  refine ⟨start, track, _, hstart, htrack, htransition, ?_⟩
  rw [hnext, List.getElem?_map, htransition]
  rfl

/-- The tracks start in their order just when no crossfade is longer than the track that it follows. -/
theorem pairwise_startTimes_iff :
    (project.startTimes (project.transitions default)).Pairwise (· ≤ ·) ↔
      ∀ pair ∈ project.tracks.zip (project.transitions default), pair.2.duration ≤ pair.1.effectiveDuration := by
  rw [← List.isChain_iff_pairwise, List.isChain_iff_getElem]
  constructor
  · rintro hchain ⟨track, transition⟩ hpair
    obtain ⟨index, hplace⟩ := List.mem_iff_getElem?.mp hpair
    obtain ⟨htrack, htransition⟩ := List.getElem?_zip_eq_some.mp hplace
    have hlt : index + 1 < (project.startTimes (project.transitions default)).length := by
      obtain ⟨hfew, -⟩ := List.getElem?_eq_some_iff.mp htransition
      rw [transitions, List.length_map, List.length_dropLast] at hfew
      rw [Project.startTimes, Segue.startTimes, length_startsFrom, List.length_map]
      omega
    obtain ⟨start, track', transition', hstart, htrack', htransition', hnext⟩ :=
      getElem?_succ_startTimes (List.getElem?_eq_getElem hlt)
    obtain rfl := Option.some.inj (htrack.symm.trans htrack')
    obtain rfl := Option.some.inj (htransition.symm.trans htransition')
    have hle := hchain index hlt
    obtain ⟨_, rfl⟩ := List.getElem?_eq_some_iff.mp hstart
    linarith
  · intro hshort index hlt
    obtain ⟨start, track, transition, hstart, htrack, htransition, hnext⟩ :=
      getElem?_succ_startTimes (List.getElem?_eq_getElem hlt)
    have hle := hshort (track, transition) (List.mem_iff_getElem?.mpr
      ⟨index, List.getElem?_zip_eq_some.mpr ⟨htrack, htransition⟩⟩)
    obtain ⟨_, rfl⟩ := List.getElem?_eq_some_iff.mp hstart
    linarith

/-- The start of the last track and its duration come to all durations less all crossfades. -/
theorem exists_last_startTimes (h : project.tracks ≠ []) (default : Rat) :
    ∃ start track, (project.startTimes (project.transitions default)).getLast? = some start ∧
      project.tracks.getLast? = some track ∧
      start + track.effectiveDuration = (project.tracks.map Track.effectiveDuration).sum
        - ((project.transitions default).map Transition.duration).sum := by
  obtain ⟨front, last, htracks⟩ := (List.eq_nil_or_concat project.tracks).resolve_left h
  rw [List.concat_eq_append] at htracks
  have hcount : ((project.transitions default).map Transition.duration).length =
      (front.map Track.effectiveDuration).length := by
    rw [transitions, htracks, List.length_map, List.length_map, List.dropLast_concat, List.length_map]
  refine ⟨(front.map Track.effectiveDuration).sum - ((project.transitions default).map Transition.duration).sum, last,
    ?_, ?_, ?_⟩
  · rw [Project.startTimes, htracks, List.map_append]
    exact getLast?_startTimes hcount _
  · rw [htracks, List.getLast?_concat]
  · rw [htracks, List.map_append, List.sum_append, List.map_singleton, List.sum_singleton]
    ring

/-- The estimated length of a mix is its durations less its crossfades, or none when that is below
zero. -/
theorem mixDuration_eq_max (tracks : List (Track Rat)) (transitions : List (Transition Rat)) :
    mixDuration tracks transitions =
      max 0 ((tracks.map Track.effectiveDuration).sum - (transitions.map Transition.duration).sum) := by
  rw [← Scalar.total_rat, ← Scalar.total_rat]
  exact Scalar.atLeast_rat _ 0

/-- Where the last track ends is all durations less all crossfades, and so the estimated length of
the mix just when it is not before zero. The first track starts at zero, the tracks start in their
order just when no crossfade is longer than the track that it follows, and none of them starts after
the one before it has ended. -/
theorem startTimes_add_effectiveDuration (project : Project Rat) (default : Rat) (h : project.tracks ≠ []) :
    ∃ start track, (project.startTimes (project.transitions default)).getLast? = some start ∧
      project.tracks.getLast? = some track ∧
      start + track.effectiveDuration = (project.tracks.map Track.effectiveDuration).sum
        - ((project.transitions default).map Transition.duration).sum ∧
      (mixDuration project.tracks (project.transitions default) = start + track.effectiveDuration ↔
        0 ≤ start + track.effectiveDuration) ∧
      (project.startTimes (project.transitions default)).head? = some 0 ∧
      ((project.startTimes (project.transitions default)).Pairwise (· ≤ ·) ↔
        ∀ pair ∈ project.tracks.zip (project.transitions default), pair.2.duration ≤ pair.1.effectiveDuration) ∧
      ∀ index start track next, (project.startTimes (project.transitions default))[index]? = some start →
        project.tracks[index]? = some track →
        (project.startTimes (project.transitions default))[index + 1]? = some next →
          next ≤ start + track.effectiveDuration := by
  obtain ⟨start, track, hstart, htrack, hend⟩ := exists_last_startTimes h default
  refine ⟨start, track, hstart, htrack, hend, ?_, ?_, pairwise_startTimes_iff, ?_⟩
  · rw [mixDuration_eq_max, ← hend]
    exact max_eq_right_iff
  · obtain ⟨first, others, htracks⟩ := List.exists_cons_of_ne_nil h
    rw [Project.startTimes, htracks, List.map_cons, startTimes_cons]
    rfl
  · intro index start track next hstart htrack hnext
    obtain ⟨start', track', transition, hstart', htrack', htransition, rfl⟩ := getElem?_succ_startTimes hnext
    obtain rfl := Option.some.inj (hstart.symm.trans hstart')
    obtain rfl := Option.some.inj (htrack.symm.trans htrack')
    have hoverlap := project.overlaps_transitions default transition (List.mem_of_getElem? htransition)
    linarith

/-- Two minutes at twice the rate, with four seconds of crossfade, then a hundred seconds with the
default of six, and two minutes more. -/
theorem startTimes_add_effectiveDuration_spedUp :
    spedUp.tracks ≠ [] ∧
      ∃ start track, (spedUp.startTimes (spedUp.transitions 6)).getLast? = some start ∧
        spedUp.tracks.getLast? = some track ∧
        start + track.effectiveDuration = (spedUp.tracks.map Track.effectiveDuration).sum
          - ((spedUp.transitions 6).map Transition.duration).sum ∧
        (mixDuration spedUp.tracks (spedUp.transitions 6) = start + track.effectiveDuration ↔
          0 ≤ start + track.effectiveDuration) ∧
        (spedUp.startTimes (spedUp.transitions 6)).head? = some 0 ∧
        ((spedUp.startTimes (spedUp.transitions 6)).Pairwise (· ≤ ·) ↔
          ∀ pair ∈ spedUp.tracks.zip (spedUp.transitions 6), pair.2.duration ≤ pair.1.effectiveDuration) ∧
        ∀ index start track next, (spedUp.startTimes (spedUp.transitions 6))[index]? = some start →
          spedUp.tracks[index]? = some track → (spedUp.startTimes (spedUp.transitions 6))[index + 1]? = some next →
            next ≤ start + track.effectiveDuration :=
  have htracks : spedUp.tracks ≠ [] := List.cons_ne_nil _ _
  ⟨htracks, startTimes_add_effectiveDuration spedUp 6 htracks⟩

example : spedUp.startTimes (spedUp.transitions 6) = [0, 56, 150] ∧
    mixDuration spedUp.tracks (spedUp.transitions 6) = 270 := by decide +kernel

end Project

end Segue
