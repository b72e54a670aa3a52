import Mathlib.Tactic.Ring
import Segue.Cue.Sheet
import Segue.Proofs.Interval.Kept
import Segue.Proofs.Mixing.Plan

/-!
When the tracks of a mix start, without rounding: as the cue sheet computes it, and as the graph
implies it. Main statement: the two agree when nothing is cut out of the windows of the tracks
before the last one, or when a window that is cut out whole is as long as the silence that stands in
for it; and only then.
-/

namespace Segue

/-- How long a part of a mix lasts, and when its tracks start. -/
structure Timing where
  length : Rat
  starts : List Rat

namespace Timing

/-- The part that is one chain. -/
def single (length : Rat) : Timing where
  length := length
  starts := [0]

/-- Two parts of which the second begins before the first has ended. -/
def followedBy (before : Timing) (overlap : Rat) (after : Timing) : Timing where
  length := before.length + (after.length - overlap)
  starts := before.starts ++ after.starts.map fun start => before.length - overlap + start

/-- A crossfade overlaps its inputs by its duration, and an append puts one behind the other. -/
def reading : Reading (Effect Rat) Timing where
  source _ := ⟨0, []⟩
  result effects inputs :=
    match effects, inputs with
    | [.crossfade duration _], [before, after] => before.followedBy duration after
    | [.append _], [before, after] => before.followedBy 0 after
    | _, _ => ⟨0, []⟩

theorem result_transitionEffect {transition : Transition Rat} (h : 0 ≤ transition.duration) (before after : Timing) :
    reading.result [MixGraph.transitionEffect transition] [before, after] =
      before.followedBy transition.duration after := by
  unfold MixGraph.transitionEffect
  split
  · rfl
  · have hzero : transition.duration = 0 := le_antisymm (not_lt.mp ‹_›) h
    rw [hzero]
    rfl

end Timing

/-- How long the chain of a track lasts: as long as its kept parts, at the tempo of the track. -/
def Track.chainLength (track : Track Rat) : Rat :=
  let cut := Chain.cutLength track.kept
  match track.tempoChange?, track.tempoRegion with
  | none, _ => cut
  | some rate, none => cut / rate
  | some rate, some region =>
    ((Tempo.rampPieces rate region.rampStart region.stop cut).map fun piece =>
      (piece.stop.getD cut - piece.start) / piece.rate).sum

/-- When the tracks start, as the transitions of a mix imply it for chains of some lengths. -/
def MixGraph.startTimes? (mix : MixGraph (Effect Rat)) (lengths : List Rat) : Option (List Rat) :=
  match mix.transitions.evaluate? Timing.reading ((mix.chains.map Chain.output).zip (lengths.map Timing.single)) with
  | some [(_, timing)] => some timing.starts
  | _ => none

theorem startsFrom_cons (time duration : Rat) (durations crossfades : List Rat) :
    startsFrom time (duration :: durations) crossfades =
      time :: startsFrom (time + (duration - crossfades.head?.getD 0)) durations crossfades.tail := rfl

theorem length_startsFrom {α : Type} [Scalar α] (time : α) (durations crossfades : List α) :
    (startsFrom time durations crossfades).length = durations.length := by
  induction durations generalizing time crossfades with
  | nil => rfl
  | cons duration durations ih => rw [startsFrom, List.length_cons, ih, List.length_cons]

theorem startTimes_cons (length : Rat) (lengths crossfades : List Rat) :
    startTimes (length :: lengths) crossfades =
      0 :: startsFrom (length - crossfades.head?.getD 0) lengths crossfades.tail := by
  change startsFrom 0 (length :: lengths) crossfades = _
  rw [startsFrom_cons, zero_add]

namespace MixGraph

theorem starts_joinedBy {lengths : List Rat} {transitions : List (Transition Rat)}
    (hcount : transitions.length = lengths.length) (hoverlaps : ∀ transition ∈ transitions, 0 ≤ transition.duration)
    (first : Timing) :
    (joinedBy Timing.reading first ((lengths.map Timing.single).zip transitions)).starts =
      first.starts ++ startsFrom (first.length - (transitions.map Transition.duration).head?.getD 0) lengths
        (transitions.map Transition.duration).tail := by
  induction lengths generalizing first transitions with
  | nil => exact (List.append_nil _).symm
  | cons length lengths ih =>
      cases transitions with
      | nil => cases hcount
      | cons transition transitions =>
          have hresult := Timing.result_transitionEffect (hoverlaps transition List.mem_cons_self) first
            (Timing.single length)
          have ih := ih (Nat.succ.inj hcount) (fun other hother => hoverlaps other (List.mem_cons_of_mem _ hother))
            (first.followedBy transition.duration (Timing.single length))
          have hnext : first.length + (length - transition.duration) -
              (transitions.map Transition.duration).head?.getD 0 =
              first.length - transition.duration +
                (length - (transitions.map Transition.duration).head?.getD 0) := by ring
          rw [List.map_cons, List.zip_cons_cons, joinedBy_cons, hresult, ih]
          simp only [Timing.followedBy, Timing.single, List.map_cons, List.map_nil, add_zero, List.append_assoc,
            List.singleton_append, List.head?_cons, List.tail_cons, Option.getD_some, startsFrom, hnext]

/-- The transitions of a mix imply the starts that chains of those lengths and their crossfades have. -/
theorem startTimes?_assemble [Decibels Rat] (options : Chain.Options Rat) {entry : Track Rat × Nat}
    {others : List (Track Rat × Nat)} {transitions : List (Transition Rat)} {length : Rat} {lengths : List Rat}
    (hcount : transitions.length = others.length) (hlengths : lengths.length = others.length)
    (hoverlaps : ∀ transition ∈ transitions, 0 ≤ transition.duration) :
    (assemble (Chain.ofTrack options entry.2 entry.1) (chainsOf options others) transitions).startTimes?
        (length :: lengths) =
      some (startTimes (length :: lengths) (transitions.map Transition.duration)) := by
  cases others with
  | nil =>
      cases List.length_eq_zero_iff.mp hcount
      cases List.length_eq_zero_iff.mp hlengths
      rfl
  | cons second others =>
      have hchains : ((chainsOf options (second :: others)).map Chain.output).length =
          (lengths.map Timing.single).length := by
        rw [List.length_map, List.length_map, hlengths]
        exact List.length_map _
      generalize hpads : (chainsOf options (second :: others)).map Chain.output = pads at hchains
      have hlinks : ∀ pad ∈ pads, ∃ track, (Link.chain track).pad = pad := by
        intro pad hpad
        rw [← hpads, chainsOf, List.map_map] at hpad
        obtain ⟨other, -, rfl⟩ := List.mem_map.mp hpad
        exact ⟨other.2, rfl⟩
      have hcarried : Carried.pads (pads.zip (lengths.map Timing.single)) = pads :=
        List.map_fst_zip (le_of_eq hchains)
      have htimings : (pads.zip (lengths.map Timing.single)).map Prod.snd = lengths.map Timing.single :=
        List.map_snd_zip (ge_of_eq hchains)
      have hne : pads.zip (lengths.map Timing.single) ≠ [] := by
        rw [← List.length_pos_iff_ne_nil, List.length_zip, hchains, min_self, List.length_map, hlengths]
        exact Nat.succ_pos _
      have hlength : transitions.length = (pads.zip (lengths.map Timing.single)).length := by
        rw [List.length_zip, hchains, min_self, List.length_map, hlengths, hcount]
      have htake : Carried.take? Timing.reading
          ((Chain.outputPad entry.2, Timing.single length) :: pads.zip (lengths.map Timing.single))
          (Chain.outputPad entry.2) = some (Timing.single length, pads.zip (lengths.map Timing.single)) :=
        Carried.take?_cons _ (Link.inputIndex?_pad (.chain entry.2))
      have hjoin := evaluate?_joinFrom htake hne hlength (by rwa [hcarried]) 1
      rw [hcarried, htimings] at hjoin
      have hmix : (assemble (Chain.ofTrack options entry.2 entry.1) (chainsOf options (second :: others))
          transitions).transitions = joinFrom (Chain.outputPad entry.2) 1 (pads.zip transitions) := by
        rw [← hpads]
        rfl
      have houtputs : (assemble (Chain.ofTrack options entry.2 entry.1) (chainsOf options (second :: others))
          transitions).chains.map Chain.output = Chain.outputPad entry.2 :: pads := by
        rw [← hpads]
        rfl
      rw [startTimes?, hmix, houtputs, List.map_cons, List.zip_cons_cons]
      rw [hjoin, startTimes_cons]
      change some (joinedBy Timing.reading _ _).starts = _
      rw [starts_joinedBy (hcount.trans hlengths.symm) hoverlaps]
      rfl

end MixGraph

/-- Starts agree when the durations do, except for the last one, which nothing comes after. -/
theorem startsFrom_eq_iff {durations durations' : List Rat} (hlength : durations.length = durations'.length)
    (time : Rat) (crossfades : List Rat) :
    startsFrom time durations crossfades = startsFrom time durations' crossfades ↔
      durations.dropLast = durations'.dropLast := by
  induction durations generalizing durations' time crossfades with
  | nil =>
      cases List.length_eq_zero_iff.mp hlength.symm
      exact iff_of_true rfl rfl
  | cons duration durations ih =>
      cases durations' with
      | nil => cases hlength
      | cons duration' durations' =>
          have hlengths := Nat.succ.inj hlength
          cases durations with
          | nil =>
              cases List.length_eq_zero_iff.mp hlengths.symm
              exact iff_of_true rfl rfl
          | cons next durations =>
              cases durations' with
              | nil => cases hlengths
              | cons next' durations' =>
                  rw [List.dropLast_cons_cons, List.dropLast_cons_cons, startsFrom_cons time duration,
                    startsFrom_cons time duration', List.cons.injEq, List.cons.injEq]
                  constructor
                  · rintro ⟨-, hrest⟩
                    have hduration : duration = duration' := by
                      rw [startsFrom_cons _ next, startsFrom_cons _ next', List.cons.injEq] at hrest
                      simpa using hrest.1
                    rw [hduration] at hrest
                    exact ⟨hduration, (ih hlengths _ _).mp hrest⟩
                  · rintro ⟨rfl, hrest⟩
                    exact ⟨rfl, (ih hlengths _ _).mpr hrest⟩

namespace Track

/-- No enabled region of positive length cuts into the window of a track. -/
def IsWhole (track : Track Rat) : Prop :=
  ∀ region ∈ track.removed, region.enabled = true → region.start < region.stop →
    region.stop ≤ track.window.1 ∨ track.window.2 ≤ region.start

instance (track : Track Rat) : Decidable track.IsWhole := by
  unfold IsWhole
  infer_instance

theorem totalLength_kept_eq_iff {track : Track Rat} (hwindow : track.window.1 < track.window.2) :
    Interval.totalLength track.kept = track.window.2 - track.window.1 ↔ track.IsWhole := by
  have hlength : Interval.length ⟨track.window.1, track.window.2⟩ = track.window.2 - track.window.1 :=
    Interval.length_of_le (le_of_lt hwindow)
  rw [← hlength]
  refine (Interval.totalLength_kept_eq_iff _ _).trans ⟨fun hdisjoint region hregion henabled hpositive => ?_,
    fun hwhole interval hinterval time htime hmem => ?_⟩
  · by_contra hcuts
    rw [not_or, not_le, not_le] at hcuts
    have hinterval := Interval.mem_ofRegions.mpr ⟨region, hregion, henabled, hpositive, rfl⟩
    refine hdisjoint _ hinterval (max region.start track.window.1) ?_ ?_
    · exact ⟨le_max_left _ _, max_lt hpositive hcuts.1⟩
    · exact ⟨le_max_right _ _, max_lt hcuts.2 hwindow⟩
  · obtain ⟨region, hregion, henabled, hpositive, rfl⟩ := Interval.mem_ofRegions.mp hinterval
    obtain ⟨hstart, hstop⟩ := htime
    obtain ⟨hstart', hstop'⟩ := hmem
    rcases hwhole region hregion henabled hpositive with hbefore | hafter
    · exact absurd (lt_of_lt_of_le hstop hbefore) (not_lt.mpr hstart')
    · exact absurd (lt_of_lt_of_le hstop' hafter) (not_lt.mpr hstart)

theorem effectiveDuration_eq (track : Track Rat) :
    track.effectiveDuration =
      match track.tempoChange? with
      | some rate => (track.window.2 - track.window.1) / rate
      | none => track.window.2 - track.window.1 := by
  unfold effectiveDuration Segue.effectiveDuration tempoChange?
  cases track.tempoRate.filter changesTempo <;> rfl

/-- The length that the cue sheet counts for a track is that of its chain when nothing is cut out of its
window, or when all of it is and it is as long as the silence that stands in for it. -/
theorem effectiveDuration_eq_chainLength_iff {track : Track Rat} (hregion : track.tempoRegion = none)
    (hwindow : track.window.1 < track.window.2) :
    track.effectiveDuration = track.chainLength ↔
      track.IsWhole ∨ track.kept = [] ∧ track.window.2 - track.window.1 = Chain.placeholderLength := by
  have hcut : track.window.2 - track.window.1 = Chain.cutLength track.kept ↔
      track.IsWhole ∨ track.kept = [] ∧ track.window.2 - track.window.1 = Chain.placeholderLength := by
    have hwhole := totalLength_kept_eq_iff hwindow
    cases hkept : track.kept with
    | nil =>
        rw [hkept, Interval.totalLength_nil] at hwhole
        have hnot : ¬track.IsWhole := fun h => absurd (hwhole.mpr h) (ne_of_lt (sub_pos.mpr hwindow))
        simp [Chain.cutLength, hnot]
    | cons first others =>
        rw [hkept] at hwhole
        rw [← hwhole]
        simp [Chain.cutLength, eq_comm]
  rw [← hcut]
  cases hchange : track.tempoChange? with
  | none =>
      have heffective := effectiveDuration_eq track
      have hchain : track.chainLength = Chain.cutLength track.kept := by
        simp only [chainLength, hchange]
      rw [hchange] at heffective
      rw [heffective, hchain]
  | some rate =>
      have hrate : rate ≠ 0 := ne_of_gt (Chain.positive_of_tempoChange? hchange).2
      have heffective := effectiveDuration_eq track
      have hchain : track.chainLength = Chain.cutLength track.kept / rate := by
        simp only [chainLength, hchange, hregion]
      rw [hchange] at heffective
      rw [heffective, hchain]
      exact div_left_inj' hrate

end Track

namespace Project

theorem overlaps_transitions (project : Project Rat) (default : Rat) :
    ∀ transition ∈ project.transitions default, 0 ≤ transition.duration := by
  intro transition htransition
  obtain ⟨track, -, rfl⟩ := List.mem_map.mp htransition
  change 0 ≤ Scalar.atLeast 0 _
  rw [Scalar.atLeast_rat]
  exact le_max_left _ _

/-- The graph of a project implies the starts that its chains and its crossfades have. -/
theorem startTimes?_of_ofChains [Decibels Rat] {project : Project Rat} {normalizes : Bool} {default : Rat}
    {mix : MixGraph (Effect Rat)}
    (hmix : MixGraph.ofChains (project.chains normalizes) (project.transitions default) = .ok mix) :
    mix.startTimes? (project.tracks.map Track.chainLength) =
      some (Segue.startTimes (project.tracks.map Track.chainLength)
        ((project.transitions default).map Transition.duration)) := by
  rw [chains_eq] at hmix
  obtain ⟨first, others, hchains, hcount, rfl⟩ := MixGraph.assemble_of_ofChains hmix
  cases htracks : project.tracks with
  | nil =>
      rw [htracks] at hchains
      cases hchains
  | cons track rest =>
      rw [htracks, List.zipIdx_cons] at hchains
      obtain ⟨rfl, rfl⟩ := List.cons.inj hchains
      have hothers : (MixGraph.chainsOf ⟨normalizes, .standard⟩ (rest.zipIdx (0 + 1))).length =
          (rest.zipIdx (0 + 1)).length := List.length_map _
      exact MixGraph.startTimes?_assemble ⟨normalizes, .standard⟩ (hcount.trans hothers)
        (by rw [List.length_map, List.length_zipIdx]) (project.overlaps_transitions default)

/-- The starts in the cue sheet are those that the graph implies just when, for every track but the
last, nothing is cut out of its window, or all of it is and it is as long as the silence that stands
in for it. -/
theorem startTimes_eq_implied_iff [Decibels Rat] (project : Project Rat) (normalizes : Bool) (default : Rat)
    (htracks : project.tracks ≠ []) (hword : project.tracks.length ≤ 2 ^ 64)
    (hregions : ∀ track ∈ project.tracks, track.tempoRegion = none)
    (hwindows : ∀ track ∈ project.tracks, track.window.1 < track.window.2) :
    ∃ mix, MixGraph.ofChains (project.chains normalizes) (project.transitions default) = .ok mix ∧
      (mix.startTimes? (project.tracks.map Track.chainLength) =
          some (project.startTimes (project.transitions default)) ↔
        ∀ track ∈ project.tracks.dropLast, track.IsWhole ∨
          track.kept = [] ∧ track.window.2 - track.window.1 = Chain.placeholderLength) := by
  obtain ⟨mix, -, hmix, -, -⟩ := project.ofChains_chains normalizes default htracks hword fun _ _ _ _ => rfl
  refine ⟨mix, hmix, ?_⟩
  rw [startTimes?_of_ofChains hmix, Option.some.injEq, Project.startTimes, Segue.startTimes, Segue.startTimes,
    startsFrom_eq_iff (by rw [List.length_map, List.length_map]), ← List.map_dropLast, ← List.map_dropLast,
    List.map_inj_left]
  refine forall₂_congr fun track htrack => ?_
  have hmem := List.dropLast_subset _ htrack
  rw [eq_comm]
  exact Track.effectiveDuration_eq_chainLength_iff (hregions track hmem) (hwindows track hmem)

/-- Two tracks of two minutes, with fifteen seconds cut out of the first. -/
def cutShort : Project Rat where
  version := "1.0"
  name := "Night"
  tracks := [
    { position := 0, title := "First", source := ⟨"first.wav"⟩, duration := 120
      removed := [{ start := 30, stop := 45 }] },
    { position := 1, title := "Second", source := ⟨"second.wav"⟩, duration := 120 }]

/-- A stand-in for tracks without gains. -/
@[reducible] def withoutGain : Decibels Rat where
  factor _ := 1

theorem startTimes_eq_implied_iff_cutShort :
    cutShort.tracks ≠ [] ∧ cutShort.tracks.length ≤ 2 ^ 64 ∧
      (∀ track ∈ cutShort.tracks, track.tempoRegion = none) ∧
      (∀ track ∈ cutShort.tracks, track.window.1 < track.window.2) ∧
      ∃ mix, MixGraph.ofChains (@Project.chains Rat _ withoutGain cutShort false) (cutShort.transitions 0) = .ok mix ∧
        (mix.startTimes? (cutShort.tracks.map Track.chainLength) =
            some (cutShort.startTimes (cutShort.transitions 0)) ↔
          ∀ track ∈ cutShort.tracks.dropLast, track.IsWhole ∨
            track.kept = [] ∧ track.window.2 - track.window.1 = Chain.placeholderLength) := by
  have htracks : cutShort.tracks ≠ [] := List.cons_ne_nil _ _
  have hword : cutShort.tracks.length ≤ 2 ^ 64 := by decide
  have hregions : ∀ track ∈ cutShort.tracks, track.tempoRegion = none := by simp [cutShort]
  have hwindows : ∀ track ∈ cutShort.tracks, track.window.1 < track.window.2 := by decide +kernel
  exact ⟨htracks, hword, hregions, hwindows,
    @startTimes_eq_implied_iff withoutGain cutShort false 0 htracks hword hregions hwindows⟩

/-- The cue sheet has the second track start at two minutes, and the graph fifteen seconds earlier. -/
theorem startTimes_cutShort :
    (∀ track ∈ cutShort.tracks, track.tempoRegion = none ∧ 0 ≤ track.window.1 ∧
      track.window.1 < track.window.2 ∧ track.window.2 ≤ track.duration) ∧
      cutShort.startTimes (cutShort.transitions 0) = [0, 120] ∧
      ∃ mix, MixGraph.ofChains (@Project.chains Rat _ withoutGain cutShort false) (cutShort.transitions 0) = .ok mix ∧
        mix.startTimes? (cutShort.tracks.map Track.chainLength) = some [0, 105] := by
  have hmerge : Interval.merge [({ start := 30, stop := 45 } : RemovedRegion Rat)] = [⟨30, 45⟩] := by
    have hpositive : (30 : Rat) < 45 := by decide +kernel
    simp [Interval.merge, Interval.ofRegions, hpositive, Interval.coalesce]
  have hmerge' : Interval.merge ([] : List (RemovedRegion Rat)) = [] := by
    simp [Interval.merge, Interval.ofRegions]
  have hlengths : cutShort.tracks.map Track.chainLength = [105, 120] := by
    simp only [cutShort, List.map_cons, List.map_nil, Track.chainLength, Track.tempoChange?, Track.kept,
      Interval.kept, hmerge, hmerge']
    decide +kernel
  obtain ⟨mix, -, hmix, -, -⟩ := @Project.ofChains_chains Rat _ withoutGain cutShort false 0 (List.cons_ne_nil _ _)
    (by decide) fun _ _ _ _ => rfl
  refine ⟨by decide +kernel, by decide +kernel, mix, hmix, ?_⟩
  rw [@startTimes?_of_ofChains withoutGain _ _ _ _ hmix, hlengths]
  decide +kernel

end Project

end Segue
