import Segue.Json.Record
import Segue.Track.Basic

/-!
Tracks as records of the project file.
-/

namespace Segue

open Json

def Curve.name : Curve → String
  | .linear => "linear"
  | .equalPower => "equal_power"
  | .sCurve => "s_curve"
  | .unknown => "unknown"

/-- Every name is a curve; one that is not known gives the unknown curve. -/
def Curve.ofName (name : String) : Curve :=
  if name = "linear" then .linear
  else if name = "equal_power" then .equalPower
  else if name = "s_curve" then .sCurve
  else .unknown

def Curve.decode : Decoder Curve := fun json => (asName json).map Curve.ofName

def CueKind.name : CueKind → String
  | .marker => "marker"
  | .trimStart => "trim_start"
  | .trimEnd => "trim_end"

def CueKind.ofName? (name : String) : Option CueKind :=
  [marker, trimStart, trimEnd].find? fun kind => kind.name = name

def CueKind.decode : Decoder CueKind := fun json => (asName json).bind CueKind.ofName?

def RemovedRegion.decode : Decoder (RemovedRegion Float) := fun json => do
  let fields ← fields? ["start_secs", "end_secs", "enabled"] json
  return {
    start := ← fields.required "start_secs" asFloat
    stop := ← fields.required "end_secs" asFloat
    enabled := ← fields.withDefault "enabled" true asBool }

def RemovedRegion.encode (region : RemovedRegion Float) : Json :=
  .object [("start_secs", .float region.start), ("end_secs", .float region.stop),
    ("enabled", .bool region.enabled)]

def TempoRegion.decode : Decoder (TempoRegion Float) := fun json => do
  let fields ← fields? ["start_secs", "end_secs", "ramp_secs"] json
  return {
    start := ← fields.required "start_secs" asFloat
    stop := ← fields.required "end_secs" asFloat
    ramp := ← fields.required "ramp_secs" asFloat }

def TempoRegion.encode (region : TempoRegion Float) : Json :=
  .object [("start_secs", .float region.start), ("end_secs", .float region.stop),
    ("ramp_secs", .float region.ramp)]

def VolumePoint.decode : Decoder (VolumePoint Float) := fun json => do
  let fields ← fields? ["time_secs", "value"] json
  return {
    time := ← fields.required "time_secs" asFloat
    value := ← fields.required "value" asFloat }

def VolumePoint.encode (point : VolumePoint Float) : Json :=
  .object [("time_secs", .float point.time), ("value", .float point.value)]

def Measurement.decode : Decoder (Measurement Float) := fun json => do
  let fields ← fields? ["integrated_lufs", "true_peak_dbtp", "lra_lu", "threshold_lufs"] json
  return {
    integrated := ← fields.required "integrated_lufs" asFloat
    truePeak := ← fields.required "true_peak_dbtp" asFloat
    range := ← fields.required "lra_lu" asFloat
    threshold := ← fields.required "threshold_lufs" asFloat }

def Measurement.encode (measured : Measurement Float) : Json :=
  .object [("integrated_lufs", .float measured.integrated), ("true_peak_dbtp", .float measured.truePeak),
    ("lra_lu", .float measured.range), ("threshold_lufs", .float measured.threshold)]

def CuePoint.decode : Decoder (CuePoint Float) := fun json => do
  let fields ← fields? ["time_secs", "label", "kind"] json
  return {
    time := ← fields.required "time_secs" asFloat
    label := ← fields.optional "label" asString
    kind := ← fields.withDefault "kind" .marker CueKind.decode }

def CuePoint.encode (cue : CuePoint Float) : Json :=
  .object [("time_secs", .float cue.time), ("label", ofOption .string cue.label),
    ("kind", .string cue.kind.name)]

/-- The field names of a track, in the order of its record. -/
def Track.fieldNames : List String :=
  ["position", "title", "artist", "source", "duration_secs", "trim_start_secs", "trim_end_secs",
    "removed_regions", "tempo_rate", "tempo_region", "gain_db", "volume_envelope", "crossfade_secs",
    "crossfade_curve", "loudness", "cue_points"]

def Track.decode : Decoder (Track Float) := fun json => do
  let fields ← fields? Track.fieldNames json
  return {
    position := ← fields.required "position" (asNatBelow (Nat.pow 2 32))
    title := ← fields.required "title" asString
    artist := ← fields.optional "artist" asString
    source := ⟨← fields.required "source" asString⟩
    duration := ← fields.required "duration_secs" asFloat
    trimStart := ← fields.optional "trim_start_secs" asFloat
    trimEnd := ← fields.optional "trim_end_secs" asFloat
    removed := ← fields.listOf "removed_regions" RemovedRegion.decode
    tempoRate := ← fields.optional "tempo_rate" asFloat
    tempoRegion := ← fields.optional "tempo_region" TempoRegion.decode
    gain := ← fields.optional "gain_db" asFloat
    envelope := ← fields.listOf "volume_envelope" VolumePoint.decode
    crossfade := ← fields.optional "crossfade_secs" asFloat
    curve := ← fields.optional "crossfade_curve" Curve.decode
    loudness := ← fields.optional "loudness" Measurement.decode
    cuePoints := ← fields.listOf "cue_points" CuePoint.decode }

def Track.encode (track : Track Float) : Json :=
  .object [
    ("position", .int track.position),
    ("title", .string track.title),
    ("artist", ofOption .string track.artist),
    ("source", .string track.source.text),
    ("duration_secs", .float track.duration),
    ("trim_start_secs", ofOption .float track.trimStart),
    ("trim_end_secs", ofOption .float track.trimEnd),
    ("removed_regions", .array (track.removed.map RemovedRegion.encode)),
    ("tempo_rate", ofOption .float track.tempoRate),
    ("tempo_region", ofOption TempoRegion.encode track.tempoRegion),
    ("gain_db", ofOption .float track.gain),
    ("volume_envelope", .array (track.envelope.map VolumePoint.encode)),
    ("crossfade_secs", ofOption .float track.crossfade),
    ("crossfade_curve", ofOption (fun curve => .string curve.name) track.curve),
    ("loudness", ofOption Measurement.encode track.loudness),
    ("cue_points", .array (track.cuePoints.map CuePoint.encode))]

end Segue
