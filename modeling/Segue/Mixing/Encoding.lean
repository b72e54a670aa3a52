import Segue.Mixing.MixGraph
import Segue.Settings.Basic

/-!
The engine run that renders a mix: its inputs, its graph, the codec, the tags and the output.
-/

namespace Segue

/-- The codec options of a format. A bitrate of zero stands for the default one. -/
def codecArguments (format : AudioFormat) (bitrate : Nat) : List String :=
  match format with
  | .wav => ["-c:a", "pcm_s16le"]
  | .flac => ["-c:a", "flac", "-compression_level", "12"]
  | .mp3 =>
    let bitrate := if bitrate = 0 then defaultBitrate else bitrate
    ["-c:a", "libmp3lame", "-b:a", toString bitrate ++ "k"]

/-- The arguments of the engine run that encodes. The output comes last. -/
def encodingArguments (inputs : List Path) (graph : String) (format : AudioFormat) (bitrate : Nat)
    (metadata : Metadata) (output : Path) : List String :=
  ["-hide_banner"]
    ++ inputs.flatMap (fun input => ["-i", input.text])
    ++ ["-filter_complex", graph, "-map", MixGraph.finalPad.text]
    ++ codecArguments format bitrate
    ++ metadata.entries.flatMap (fun (tag, value) => ["-metadata", tag ++ "=" ++ value])
    ++ ["-y", output.text]

/-- The estimated length of a mix: the tracks less the overlaps, and never below zero. A ramp counts
as if the whole track played at its rate. -/
def mixDuration {α : Type} [Scalar α] (tracks : List (Track α)) (transitions : List (Transition α)) : α :=
  let played := Scalar.total (tracks.map Track.effectiveDuration)
  let overlap := Scalar.total (transitions.map Transition.duration)
  Scalar.atLeast 0 (played - overlap)

/-- All that is needed to render a mix. -/
structure RenderPlan where
  arguments : List String
  graph : MixGraph (Effect Float)
  /-- The estimated length of the output in seconds. -/
  duration : Float

/-- The chains of a project's tracks, in order. -/
def Project.chains {α : Type} [Scalar α] [Decibels α] (project : Project α) (normalizes : Bool) :
    List (Chain (Effect α)) :=
  project.tracks.mapIdx (Chain.ofTrack { normalizes, targets := .standard })

/-- The plan for rendering a mix into a file. A track that has not been measured is not normalized. -/
def Mix.plan (mix : Mix Float) (settings : ExportSettings) (output : Path) :
    Except GraphError RenderPlan := do
  let project := mix.project
  let transitions := project.transitions settings.defaultCrossfade
  let graph ← MixGraph.ofChains (project.chains settings.normalize) transitions
  return {
    arguments := encodingArguments mix.sourcePaths graph.text settings.format settings.bitrate
      project.effectiveMetadata output
    graph
    duration := mixDuration project.tracks transitions }

end Segue
