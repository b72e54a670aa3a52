import Segue.Project.Basic

/-!
The numbers of a project. Reading a project file gives finite ones only.
-/

namespace Segue

variable {α : Type}

def Track.numbers (track : Track α) : List α :=
  track.duration :: (track.trimStart.toList ++ track.trimEnd.toList
    ++ track.removed.flatMap (fun region => [region.start, region.stop])
    ++ track.tempoRate.toList
    ++ track.tempoRegion.toList.flatMap (fun region => [region.start, region.stop, region.ramp])
    ++ track.gain.toList
    ++ track.envelope.flatMap (fun point => [point.time, point.value])
    ++ track.crossfade.toList
    ++ track.loudness.toList.flatMap (fun measured =>
      [measured.integrated, measured.truePeak, measured.range, measured.threshold])
    ++ track.cuePoints.map CuePoint.time)

def Project.IsFinite [Scalar α] (project : Project α) : Prop :=
  ∀ track ∈ project.tracks, ∀ number ∈ track.numbers, Scalar.isFinite number = true

instance [Scalar α] (project : Project α) : Decidable project.IsFinite := by
  unfold Project.IsFinite
  infer_instance

theorem Project.IsFinite.tempoRate [Scalar α] {project : Project α} (h : project.IsFinite) {track : Track α}
    (htrack : track ∈ project.tracks) : ∀ rate ∈ track.tempoRate, Scalar.isFinite rate = true := by
  intro rate hrate
  refine h track htrack rate ?_
  simp [Track.numbers, Option.mem_def.mp hrate]

end Segue
