import Segue.Json.Reader
import Segue.Json.Record
import Segue.Json.Writer
import Segue.Settings.Basic

/-!
Settings as records, and the text of the configuration file. A section or field that is not given has
its default; a file that cannot be decoded counts as no file.
-/

namespace Segue

open Json

def AudioFormat.decode : Decoder AudioFormat := fun json =>
  (asName json).bind fun name => [wav, flac, mp3].find? fun format => format.extension = name

def ExportSettings.decode : Decoder (ExportSettings) := fun json => do
  let fields ← fields? ["format", "bitrate_kbps", "normalize", "default_crossfade_secs",
    "write_cue_sheet", "last_exported_at"] json
  return {
    format := ← fields.withDefault "format" .flac AudioFormat.decode
    bitrate := ← fields.withDefault "bitrate_kbps" defaultBitrate (asNatBelow (Nat.pow 2 32))
    normalize := ← fields.withDefault "normalize" false asBool
    defaultCrossfade := ← fields.withDefault "default_crossfade_secs" 0.0 asFloat
    writesCueSheet := ← fields.withDefault "write_cue_sheet" true asBool
    lastExported := ← fields.optional "last_exported_at" asString }

def ExportSettings.encode (settings : ExportSettings) : Json :=
  .object [("format", .string settings.format.extension), ("bitrate_kbps", .int settings.bitrate),
    ("normalize", .bool settings.normalize),
    ("default_crossfade_secs", .float settings.defaultCrossfade),
    ("write_cue_sheet", .bool settings.writesCueSheet),
    ("last_exported_at", ofOption .string settings.lastExported)]

def LogSettings.decode : Decoder LogSettings := fun json => do
  let fields ← fields? ["level", "json", "file"] json
  return {
    level := ← fields.withDefault "level" "info" asString
    json := ← fields.withDefault "json" false asBool
    file := (← fields.optional "file" asString).map Path.mk }

def LogSettings.encode (log : LogSettings) : Json :=
  .object [("level", .string log.level), ("json", .bool log.json),
    ("file", ofOption (fun path => .string path.text) log.file)]

namespace Config

/-- The engine section has one field. -/
def decodeEngine : Decoder String := fun json => do
  let fields ← fields? ["binary"] json
  fields.withDefault "binary" "ffmpeg" asString

def decode : Decoder Config := fun json => do
  let fields ← fields? ["export", "engine", "logging"] json
  return {
    remembered := ← fields.withDefault "export" {} ExportSettings.decode
    engine := ← fields.withDefault "engine" "ffmpeg" decodeEngine
    log := ← fields.withDefault "logging" {} LogSettings.decode }

def encode (config : Config) : Json :=
  .object [("export", config.remembered.encode), ("engine", .object [("binary", .string config.engine)]),
    ("logging", config.log.encode)]

/-- Reads the text of a configuration file. -/
def parse? (text : String) : Option Config := (Json.parse? text).bind decode

/-- The text of a configuration file. -/
def fileText (config : Config) : String := config.encode.pretty

/-- The configuration that stored text gives, if there is any. -/
def ofStored (stored : Option String) : Config := (stored.bind parse?).getD {}

/-- The configuration with other export settings, marked as exported at some time. -/
def remember (config : Config) (settings : ExportSettings) (time : String) : Config :=
  { config with remembered := { settings with lastExported := some time } }

end Config

end Segue
