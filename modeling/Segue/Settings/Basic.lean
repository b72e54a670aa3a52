import Segue.Path
import Segue.Text.Blank

/-!
What an export writes and how: the settings that are remembered between exports, and the
configuration that keeps them beside the engine and the log.
-/

namespace Segue

/-- The container and codec of the rendered file. -/
inductive AudioFormat where
  /-- Uncompressed samples. -/
  | wav
  /-- Lossless compression. -/
  | flac
  /-- Lossy compression at a bitrate. -/
  | mp3
  deriving Repr, DecidableEq, Inhabited

namespace AudioFormat

/-- The file extension, which is also the name of the format. -/
def extension : AudioFormat → String
  | .wav => "wav"
  | .flac => "flac"
  | .mp3 => "mp3"

def isLossy : AudioFormat → Bool
  | .mp3 => true
  | .wav | .flac => false

/-- The text as format names are compared: without blanks around it, Latin letters lower-case. -/
def foldName (text : String) : String := (Text.trim text).map Char.toLower

/-- The format a user asks for by name. -/
def ofText? (text : String) : Option AudioFormat :=
  let name := foldName text
  if name = "wav" ∨ name = "wave" then some .wav
  else if name = "flac" then some .flac
  else if name = "mp3" then some .mp3
  else none

end AudioFormat

/-- The bitrate of lossy formats when none is asked for, in kilobits per second. -/
def defaultBitrate : Nat := 320

/-- The settings of an export, remembered for the next one. -/
structure ExportSettings where
  format : AudioFormat := .flac
  /-- The bitrate of lossy formats, in kilobits per second. -/
  bitrate : Nat := defaultBitrate
  /-- Whether every track is measured first and brought to one loudness. -/
  normalize : Bool := false
  /-- The crossfade of tracks without one of their own, in seconds. -/
  defaultCrossfade : Float := 0.0
  /-- Whether a cue sheet is written beside the rendered file. -/
  writesCueSheet : Bool := true
  /-- When the last export ended. -/
  lastExported : Option String := none
  deriving Repr

structure LogSettings where
  level : String := "info"
  json : Bool := false
  file : Option Path := none
  deriving Repr, DecidableEq

/-- The configuration file. -/
structure Config where
  remembered : ExportSettings := {}
  /-- The name or path of the encoding engine. -/
  engine : String := "ffmpeg"
  log : LogSettings := {}
  deriving Repr

/-- The configuration file below the directory that the user's environment names for configurations,
or below a hidden directory of the home. -/
def Config.path (configHome home : Option String) : Path :=
  let base : Path := match configHome with
    | some directory => ⟨directory⟩
    | none => Path.join ⟨home.getD "/tmp"⟩ ⟨".config"⟩
  (base.join ⟨"mixdown"⟩).join ⟨"config.json"⟩

end Segue
