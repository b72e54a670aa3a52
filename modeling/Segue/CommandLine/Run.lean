import Segue.CommandLine.Command
import Segue.CommandLine.Host
import Segue.CommandLine.Reports
import Segue.Project.OutputName
import Segue.Project.Store

/-!
The commands at work. A command that fails says why on the error output, behind what it has printed
until then.
-/

namespace Segue.CommandLine

variable {m : Type → Type} [Monad m] [Host m]

/-- The mix of a project file or of the directory that it is in. -/
def loadMix (path : Path) : ExceptT String m (Mix Float) := do
  let file := if ← (isDirectory path : m Bool) then path.join Mix.fileName else path
  let text ← (read file : m (Except FileError String))
  match Mix.ofRead file text with
  | .ok mix => return mix
  | .error error => throw ("Failed to load project: " ++ error.message)

/-- The settings of one export. -/
def settingsFor (config : Config) (overrides : Overrides) : ExceptT String m ExportSettings :=
  match overrides.apply config.remembered with
  | .ok settings => return settings
  | .error failure => throw failure.message

def sayLines (lines : List String) : ExceptT String m Unit := (say (ofLines lines) : m Unit)

/-- The titles of the tracks whose sources are not there, in order. -/
def missingSources (mix : Mix Float) : m (List String) := do
  let missing ← mix.project.tracks.filterM fun track => return !(← contains (mix.sourcePath track))
  return missing.map Track.title

def runInfo (config : Config) (path : Path) (crossfade : Option Float) : ExceptT String m Unit := do
  let mix ← loadMix path
  sayLines (infoLines mix (crossfade.getD config.remembered.defaultCrossfade))

def runValidate (config : Config) (path : Path) : ExceptT String m Unit := do
  sayLines ["Validating mix at: " ++ path.text]
  let mix ← loadMix path
  let missing ← (missingSources mix : m (List String))
  let isAvailable ← (hasEngine config.engine : m Bool)
  sayLines (validationLines mix missing config.engine isAvailable)

/-- The audio file that a cue sheet belongs to: the one beside it with its name. -/
def audioNameBeside (sheet : Path) (format : AudioFormat) : String :=
  (sheet.withExtension format.extension).fileName?.getD ""

def runCue (config : Config) (path : Path) (output : Option Path) (overrides : Overrides) :
    ExceptT String m Unit := do
  let mix ← loadMix path
  let settings ← settingsFor config overrides
  let sheet := output.getD (CueSheet.pathBeside (mix.defaultOutput settings.format))
  let text := mix.cueSheet settings (audioNameBeside sheet settings.format)
  match ← (write sheet text : m (Except FileError Unit)) with
  | .error error => throw (CueSheet.writeFailure sheet error).message
  | .ok () => sayLines ["Cue sheet written: " ++ sheet.text]

def runGraph (config : Config) (path : Path) (output : Option Path) (asJson : Bool)
    (overrides : Overrides) : ExceptT String m Unit := do
  let mix ← loadMix path
  let settings ← settingsFor config overrides
  match mix.plan settings (output.getD (mix.defaultOutput settings.format)) with
  | .error error => throw (Failure.graphBuild error.message).message
  | .ok plan =>
    if asJson then sayLines [(Json.array (plan.arguments.map .string)).pretty]
    else sayLines (planLines mix settings config.engine plan)

def runExport (config : Config) (configFile path : Path) (output : Option Path) (overrides : Overrides) :
    ExceptT String m Unit := do
  sayLines ["Exporting mix at: " ++ path.text]
  let mix ← loadMix path
  let settings ← settingsFor config overrides
  let output := output.getD (mix.defaultOutput settings.format)
  sayLines (exportLines mix settings output)
  let observe (event : Event) : m Unit := say (progressText event)
  match ← (render config.engine configFile { mix, output, settings } observe : m Outcome) with
  | .completed output => sayLines ["", "Export complete: " ++ output.text]
  | .cancelled => sayLines ["", "Export cancelled."]
  | .failed message => throw ("Export failed: " ++ message)

def runCommand (config : Config) (configFile : Path) : Command → ExceptT String m Unit
  | .export path output overrides => runExport config configFile path output overrides
  | .validate path => runValidate config path
  | .info path crossfade => runInfo config path crossfade
  | .cue path output overrides => runCue config path output overrides
  | .graph path output asJson overrides => runGraph config path output asJson overrides

/-- Opens the log file, if one is configured. Without it the command goes on. -/
def openLog (log : LogSettings) : m Unit := do
  match log.file with
  | none => return
  | some path =>
    match ← openForAppending path with
    | .ok () => return
    | .error error =>
      warn ("mixdown: cannot open log file " ++ path.text ++ ": " ++ error.message ++ "\n")

/-- The text that a command line without a command gets. -/
def usage : String := ofLines [
  "Usage: mixdown [-v] <COMMAND>",
  "  export <PATH> [-o FILE] [SETTINGS]          Render a mix to an audio file",
  "  validate <PATH>                             Check that every track source exists",
  "  info <PATH> [--crossfade SECONDS]           Show tracks, durations and start times",
  "  cue <PATH> [-o FILE] [SETTINGS]             Write only the cue sheet",
  "  graph <PATH> [-o FILE] [--json] [SETTINGS]  Print the filter graph and the engine's arguments",
  "Settings: --format wav|flac|mp3, --bitrate KBPS, --[no-]normalize, --crossfade SECONDS, --[no-]cue"]

/-- Runs a command line with the configuration kept in a file, and gives the exit status. -/
def run (configFile : Path) (arguments : List String) : m Nat := do
  match Command.ofArguments arguments with
  | .error .usage => do
    warn usage
    return 2
  | .error .help => do
    say usage
    return 0
  | .error .version => do
    say "mixdown 0.1.0\n"
    return 0
  | .ok command =>
    let config := Config.ofStored (← read configFile).toOption
    openLog config.log
    match ← (runCommand config configFile command).run with
    | .ok () => return 0
    | .error message => do
      warn ("Error: " ++ message ++ "\n")
      return 1

end Segue.CommandLine
