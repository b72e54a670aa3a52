import Segue.Cue.Sheet
import Segue.Job.Event
import Segue.Mixing.Encoding
import Segue.Project.Record
import Segue.Text.ShellWord

/-!
What the commands print about a mix and about a running export.
-/

namespace Segue.CommandLine

open Numeral

/-- Lines, each with a line break behind it. -/
def ofLines (lines : List String) : String := String.join (lines.map fun line => line ++ "\n")

/-- The name of a curve for people. -/
def curveName : Curve → String
  | .linear => "Linear"
  | .equalPower => "EqualPower"
  | .sCurve => "SCurve"
  | .unknown => "Unknown"

/-- What is said about a track that starts at some time. The first one has the number one. -/
def trackLines (mix : Mix Float) (place : Nat) (track : Track Float) (start : Float)
    (transition : Option (Transition Float)) : List String :=
  let removed := (track.removed.filter RemovedRegion.enabled).length
  ["  " ++ twoDigits (place + 1) ++ ". " ++ track.title
      ++ " [" ++ durationText track.effectiveDuration ++ "] start " ++ durationText start
      ++ " (" ++ CueTime.text start ++ ")",
    "      Source: " ++ (mix.sourcePath track).text]
    ++ (match track.tempoChange? with
      | some rate => ["      Tempo: " ++ fixed 3 rate ++ "x"]
      | none => [])
    ++ (match track.gain with
      | some gain => ["      Gain: " ++ FixedStyle.write { places := 1, showsPlus := true } gain ++ " dB"]
      | none => [])
    ++ (if 0 < removed then ["      Removed regions: " ++ toString removed] else [])
    ++ (match transition with
      | some transition =>
        ["      Crossfade out: " ++ fixed 1 transition.duration ++ "s (" ++ curveName transition.curve ++ ")"]
      | none => [])

/-- What is said about a mix whose tracks fade for some time unless they say otherwise. -/
def infoLines (mix : Mix Float) (defaultCrossfade : Float) : List String :=
  let project := mix.project
  let transitions := project.transitions defaultCrossfade
  let starts := project.startTimes transitions
  ["Mix: " ++ project.name]
    ++ (match project.artist with
      | some artist => ["  Artist: " ++ artist]
      | none => [])
    ++ project.metadata.entries.map (fun (key, value) => "  " ++ key ++ ": " ++ value)
    ++ ["", "Tracks:"]
    ++ ((project.tracks.zip starts).mapIdx fun place (track, start) =>
      trackLines mix place track start transitions[place]?).flatten
    ++ ["", "Estimated length: " ++ durationText (mixDuration project.tracks transitions)]

/-- The problems of a mix, given the titles of tracks without a source. -/
def issues (mix : Mix Float) (missing : List String) : List String :=
  (if mix.project.tracks.isEmpty then ["Mix has no tracks"] else [])
    ++ missing.map (fun title => "Missing source for track '" ++ title ++ "'")
    ++ mix.project.tracks.filterMap fun track =>
      let (start, stop) := track.window
      if stop ≤ start then
        some ("Track '" ++ track.title ++ "' has an empty trim window (" ++ fixed 3 start ++ "s.."
          ++ fixed 3 stop ++ "s)")
      else none

/-- What is found when a mix is checked, given the titles of tracks without a source and whether the
engine is there. -/
def validationLines (mix : Mix Float) (missing : List String) (engine : String) (isAvailable : Bool) :
    List String :=
  let project := mix.project
  let issues := issues mix missing
    ++ if isAvailable then [] else ["Encoding engine '" ++ engine ++ "' not found"]
  ["  Name: " ++ project.name, "  Version: " ++ project.version,
      "  Tracks: " ++ toString project.tracks.length]
    ++ (if isAvailable then ["  Engine: " ++ engine ++ " found"] else [])
    ++ if issues.isEmpty then ["  Sources: All present", "", "Mix is valid."]
      else ["", "Validation issues:"] ++ issues.map (fun issue => "  - " ++ issue)
        ++ ["", toString issues.length ++ " issue(s) found. Export will fail."]

/-- What is said about the plan of a render: the graph, the length and the command that would run. -/
def planLines (mix : Mix Float) (settings : ExportSettings) (engine : String) (plan : RenderPlan) :
    List String :=
  let stages := (Graph.filters plan.graph.stages).map Stage.text
  (if settings.normalize && mix.project.tracks.any (·.loudness.isNone) then
      ["# Tracks without a loudness measurement pass through unnormalized."]
    else [])
    ++ ["# Filter graph (" ++ toString stages.length ++ " stages)"] ++ stages
    ++ ["", "# Estimated length: " ++ fixed 3 plan.duration ++ "s",
      Text.ShellWord.line (engine :: plan.arguments)]

/-- What is said before an export to a file. -/
def exportLines (mix : Mix Float) (settings : ExportSettings) (output : Path) : List String :=
  ["  Tracks: " ++ toString mix.project.tracks.length, "  Output: " ++ output.text,
      "  Format: " ++ settings.format.extension]
    ++ (if settings.format.isLossy then ["  Bitrate: " ++ toString settings.bitrate ++ " kbps"] else [])
    ++ ["  Default crossfade: " ++ fixed 1 settings.defaultCrossfade ++ "s",
      "  Normalize: " ++ toString settings.normalize]

/-- The name of a phase for people, as long as the job has not ended. -/
def phaseLabel? : Phase → Option String
  | .validating => some "Validating"
  | .analyzing => some "Analyzing loudness"
  | .rendering => some "Rendering"
  | .cue => some "Writing cue sheet"
  | .complete | .error | .cancelled => none

/-- The progress that takes the place of the one printed before it. -/
def progressText (event : Event) : String :=
  match phaseLabel? event.phase with
  | none => ""
  | some label =>
    let remaining := match event.remaining with
      | some seconds => ", ETA: " ++ durationText seconds
      | none => ""
    "\r  " ++ label ++ ": " ++ fixed 1 event.percent ++ "%" ++ remaining ++ "          "

end Segue.CommandLine
