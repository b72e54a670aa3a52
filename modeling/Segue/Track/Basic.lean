import Segue.Path
import Segue.Scalar

/-!
A track of a mix: a source file and the edits applied to it. All times are seconds on the track's own
timeline.
-/

namespace Segue

/-- A span cut out of a track. A disabled one is kept but ignored. -/
structure RemovedRegion (α : Type) where
  start : α
  stop : α
  enabled : Bool := true
  deriving Repr

/-- A span over whose last part the tempo goes back to normal. -/
structure TempoRegion (α : Type) where
  start : α
  stop : α
  /-- The length of the ramp that ends where the region ends. -/
  ramp : α
  deriving Repr

/-- A breakpoint of the volume automation, with a linear gain. -/
structure VolumePoint (α : Type) where
  time : α
  value : α
  deriving Repr

/-- The shape of a crossfade. -/
inductive Curve where
  | linear
  | equalPower
  | sCurve
  /-- A name that is not known; rendered as a linear curve. -/
  | unknown
  deriving Repr, DecidableEq, Inhabited

/-- Loudness statistics of one source. -/
structure Measurement (α : Type) where
  integrated : α
  truePeak : α
  range : α
  threshold : α
  deriving Repr

/-- What a cue point marks. -/
inductive CueKind where
  | marker
  | trimStart
  | trimEnd
  deriving Repr, DecidableEq, Inhabited

def CueKind.isTrim : CueKind → Bool
  | .marker => false
  | .trimStart | .trimEnd => true

/-- A marker inside a track. -/
structure CuePoint (α : Type) where
  time : α
  label : Option String
  kind : CueKind
  deriving Repr

/-- One track. What is not set keeps the source as it is. -/
structure Track (α : Type) where
  /-- Tracks play in increasing order of this number. -/
  position : Nat
  title : String
  artist : Option String := none
  /-- The media file; a relative path starts at the project's directory. -/
  source : Path
  duration : α
  trimStart : Option α := none
  trimEnd : Option α := none
  removed : List (RemovedRegion α) := []
  /-- The playback rate; above one is faster. -/
  tempoRate : Option α := none
  tempoRegion : Option (TempoRegion α) := none
  /-- A static gain in decibels. -/
  gain : Option α := none
  envelope : List (VolumePoint α) := []
  /-- The crossfade into the next track; the export's default when it is not set. -/
  crossfade : Option α := none
  curve : Option Curve := none
  loudness : Option (Measurement α) := none
  cuePoints : List (CuePoint α) := []
  deriving Repr

variable {α : Type} [Scalar α]

/-- Quantities this near are taken as equal: a rate this near to one leaves a track as it is. -/
def tolerance : α := 0.000001

/-- Where the ramp back to normal speed begins, never before the track does. -/
def TempoRegion.rampStart (region : TempoRegion α) : α :=
  Scalar.atLeast 0 (region.stop - Scalar.atLeast 0 region.ramp)

/-- Whether a rate changes the playback speed at all. -/
def changesTempo (rate : α) : Bool := decide (0 < rate) && decide (tolerance < Scalar.magnitude (rate - 1))

namespace Track

/-- The start and the end of what trimming leaves. -/
def window (track : Track α) : α × α := (track.trimStart.getD 0, track.trimEnd.getD track.duration)

/-- The tempo rate, when it changes the playback speed. -/
def tempoChange? (track : Track α) : Option α := track.tempoRate.filter changesTempo

end Track

/-- The length that a source of some duration has in the mix: what trimming leaves of it, played at
the tempo rate. -/
def effectiveDuration (duration : α) (trimStart trimEnd tempoRate : Option α) : α :=
  let trimmed := trimEnd.getD duration - trimStart.getD 0
  match tempoRate.filter changesTempo with
  | some rate => trimmed / rate
  | none => trimmed

/-- The length of a track in the mix before crossfades overlap it. -/
def Track.effectiveDuration (track : Track α) : α :=
  Segue.effectiveDuration track.duration track.trimStart track.trimEnd track.tempoRate

end Segue
