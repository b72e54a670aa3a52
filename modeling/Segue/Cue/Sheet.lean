import Segue.Cue.Time
import Segue.Failure
import Segue.Files
import Segue.Project.Basic
import Segue.Settings.Basic

/-!
Cue sheets. The start of each track is computed from lengths and crossfades, not from the graph, and
so are the times of its markers.
-/

namespace Segue

variable {α : Type} [Scalar α]

/-- The start of each track of some duration: where the one before it starts, and its duration later,
less the crossfade between them. -/
def startsFrom (time : α) : List α → List α → List α
  | [], _ => []
  | duration :: durations, crossfades =>
    time :: startsFrom (time + (duration - crossfades.head?.getD 0)) durations crossfades.tail

/-- The start of each track in the mix. -/
def startTimes (durations crossfades : List α) : List α := startsFrom 0 durations crossfades

/-- The starts of a project's tracks in the mix. -/
def Project.startTimes (project : Project α) (transitions : List (Transition α)) : List α :=
  Segue.startTimes (project.tracks.map Track.effectiveDuration) (transitions.map Transition.duration)

/-- The times in the mix of a track's markers inside its trim window, in order. -/
def Track.markerTimes (track : Track α) (start : α) : List α :=
  let (windowStart, windowEnd) := track.window
  let times := (track.cuePoints.filter fun cue => !cue.kind.isTrim).map CuePoint.time
  let inside := times.filter fun time => decide (windowStart ≤ time) && decide (time ≤ windowEnd)
  (inside.mergeSort Scalar.sortsBefore).map fun time => start + (time - windowStart)

/-- The greatest index number that a track can have. -/
def maxIndex : Nat := 99

/-- The entries of one track. -/
structure CueTrack (α : Type) where
  title : String
  performer : Option String
  /-- The start of the track, then its markers. -/
  indexes : List α
  deriving Repr

/-- A cue sheet for one audio file. -/
structure CueSheet (α : Type) where
  genre : Option String
  date : Option String
  comment : Option String
  performer : Option String
  title : String
  file : String
  format : AudioFormat
  tracks : List (CueTrack α)
  deriving Repr

namespace CueSheet

/-- A field that has more than blanks in it. -/
def filled (field : Option String) : Option String := field.filter fun text => Text.trim text != ""

/-- The cue sheet of a mix that is rendered to a file. -/
def ofProject (project : Project α) (transitions : List (Transition α)) (file : String)
    (format : AudioFormat) : CueSheet α :=
  let metadata := project.effectiveMetadata
  { genre := filled metadata.genre
    date := (filled metadata.year).map Text.trim
    comment := filled metadata.comment
    performer := metadata.artist
    title := metadata.title.getD project.name
    file
    format
    tracks := (project.tracks.zip (project.startTimes transitions)).map fun (track, start) =>
      { title := track.title, performer := track.artist
        indexes := start :: (track.markerTimes start).take (maxIndex - 1) } }

/-- A text in quotes; a quote inside is written behind a backslash. -/
def quoted (text : String) : String :=
  String.ofList ('"' :: text.toList.flatMap (fun c => if c = '"' then ['\\', '"'] else [c]) ++ ['"'])

def fileType : AudioFormat → String
  | .mp3 => "MP3"
  | .wav | .flac => "WAVE"

/-- A line with an optional quoted field. -/
def optionalLine (label : String) : Option String → List String
  | some text => [label ++ " " ++ quoted text]
  | none => []

/-- The lines above the tracks. -/
def headerLines (sheet : CueSheet α) : List String :=
  optionalLine "REM GENRE" sheet.genre
    ++ (match sheet.date with
      | some date => ["REM DATE " ++ date]
      | none => [])
    ++ optionalLine "REM COMMENT" sheet.comment
    ++ optionalLine "PERFORMER" sheet.performer
    ++ ["TITLE " ++ quoted sheet.title, "FILE " ++ quoted sheet.file ++ " " ++ fileType sheet.format]

/-- The line of an index of a track; the first one has the number one. -/
def indexLine (place : Nat) (time : Float) : String :=
  "    INDEX " ++ twoDigits (place + 1) ++ " " ++ CueTime.text time

/-- The lines of a track; the first one has the number one. -/
def trackLines (place : Nat) (track : CueTrack Float) : List String :=
  ["  TRACK " ++ twoDigits (place + 1) ++ " AUDIO", "    TITLE " ++ quoted track.title]
    ++ optionalLine "    PERFORMER" track.performer
    ++ track.indexes.mapIdx indexLine

def lines (sheet : CueSheet Float) : List String :=
  sheet.headerLines ++ (sheet.tracks.mapIdx trackLines).flatten

/-- The text of the sheet, each line with a line break behind it. -/
def text (sheet : CueSheet Float) : String := String.join (sheet.lines.map fun line => line ++ "\n")

/-- The cue sheet beside a rendered file. -/
def pathBeside (output : Path) : Path := output.withExtension "cue"

/-- The failure to write a cue sheet. -/
def writeFailure (path : Path) (error : FileError) : Failure :=
  .cueSheet (path.text ++ ": " ++ error.message)

end CueSheet

/-- The text of the cue sheet of a mix rendered to a file of some name. -/
def Mix.cueSheet (mix : Mix Float) (settings : ExportSettings) (file : String) : String :=
  let transitions := mix.project.transitions settings.defaultCrossfade
  (CueSheet.ofProject mix.project transitions file settings.format).text

end Segue
