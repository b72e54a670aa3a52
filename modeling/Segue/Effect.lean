import Segue.Envelope
import Segue.Graph.Basic
import Segue.Loudness.Targets
import Segue.Numeral.Shortest

/-!
What the stages of a mix do to audio, and how the engine is told of it.
-/

namespace Segue

/-- One operation on audio. -/
inductive Effect (α : Type) where
  /-- Endless stereo silence. -/
  | silence
  /-- The part of the input from one time on, to its end when there is no other time. -/
  | part (start : α) (stop : Option α)
  /-- The input up to a time. -/
  | limit (stop : α)
  /-- Counts time from the first sample on. -/
  | restartClock
  /-- As many copies of the input. -/
  | split (count : Nat)
  /-- That many inputs one after the other. -/
  | append (count : Nat)
  /-- The input played at a rate that a single stretch can give. -/
  | stretch (rate : α)
  | amplify (factor : α)
  /-- The input times a gain that depends on time. -/
  | automate (gain : Envelope.Expr α)
  /-- The input brought to the targets, given what was measured of it. -/
  | normalize (targets : LoudnessTargets α) (measured : Measurement α)
  /-- The input as it is. -/
  | pass
  /-- Two inputs that overlap for some time, the first fading out and the second fading in. -/
  | crossfade (duration : α) (curve : Curve)
  deriving Repr

/-- The engine's name for a curve; both sides of a crossfade have the same one. -/
def Curve.engineName : Curve → String
  | .equalPower => "qsin"
  | .sCurve => "hsin"
  | .linear | .unknown => "tri"

namespace Effect

open Segue.Filter Segue.Envelope

/-- The engine's filter for an operation. -/
def filter : Effect Float → Filter
  | silence => { name := "anullsrc", options := [keyed "r" "44100", keyed "cl" "stereo"] }
  | part start none => { name := "atrim", options := [keyed "start" (number start)] }
  | part start (some stop) =>
    { name := "atrim", options := [keyed "start" (number start), keyed "end" (number stop)] }
  | limit stop => { name := "atrim", options := [keyed "end" (number stop)] }
  | restartClock => { name := "asetpts", options := [positional "PTS-STARTPTS"] }
  | split count => { name := "asplit", options := [positional (toString count)] }
  | append count =>
    { name := "concat", options := [keyed "n" (toString count), keyed "v" "0", keyed "a" "1"] }
  | stretch rate => { name := "atempo", options := [positional (number rate)] }
  | amplify factor => { name := "volume", options := [positional (number factor)] }
  | automate gain =>
    { name := "volume", options := [keyed "volume" ("'" ++ gain.text ++ "'"), keyed "eval" "frame"] }
  | normalize targets measured =>
    { name := "loudnorm"
      options := [
        keyed "I" (Numeral.plain targets.integrated),
        keyed "TP" (Numeral.plain targets.truePeak),
        keyed "LRA" (Numeral.plain targets.range),
        keyed "measured_I" (Numeral.plain measured.integrated),
        keyed "measured_TP" (Numeral.plain measured.truePeak),
        keyed "measured_LRA" (Numeral.plain measured.range),
        keyed "measured_thresh" (Numeral.plain measured.threshold),
        keyed "linear" "true"] }
  | pass => { name := "anull" }
  | crossfade duration curve =>
    { name := "acrossfade"
      options := [keyed "d" (number duration), keyed "c1" curve.engineName,
        keyed "c2" curve.engineName] }

end Effect

/-- The stages as the engine is told of them. -/
def Graph.filters (graph : Graph (Effect Float)) : Graph Filter := graph.map (Stage.map Effect.filter)

end Segue
