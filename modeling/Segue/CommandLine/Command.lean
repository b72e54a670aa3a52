import Segue.CommandLine.Options
import Segue.Path
import Segue.Settings.Overrides

/-!
The commands, and the command line of each.
-/

namespace Segue.CommandLine

/-- What the user asks for. The first path is the project file or its directory. -/
inductive Command where
  | export (path : Path) (output : Option Path) (overrides : Overrides)
  | validate (path : Path)
  | info (path : Path) (crossfade : Option Float)
  | cue (path : Path) (output : Option Path) (overrides : Overrides)
  | graph (path : Path) (output : Option Path) (asJson : Bool) (overrides : Overrides)
  deriving Repr

/-- The options of every command. -/
def commonOptions : List OptionName := [.verbose, .help]

/-- The options that override settings. -/
def settingOptions : List OptionName :=
  [.format, .bitrate, .normalize, .noNormalize, .crossfade, .cue, .noCue]

/-- The options of a command, if there is one of that name. -/
def optionsOf? (command : String) : Option (List OptionName) :=
  if command = "export" ∨ command = "cue" then some (.output :: settingOptions)
  else if command = "graph" then some (.output :: .json :: settingOptions)
  else if command = "info" then some [.crossfade]
  else if command = "validate" then some []
  else none

/-- Whether the words behind `help` name something that is explained: nothing, a command, or the help
itself. -/
def isHelpTopic : List String → Bool
  | [] => true
  | [topic] => topic = "help" || (optionsOf? topic).isSome
  | _ => false

namespace Given

def value? (given : Given) (name : OptionName) : Option String := given.options.lookup name

/-- What an option and its contrary say, if one of them is given. -/
def toggle (given : Given) (on off : OptionName) : Option Bool :=
  if given.has on then some true else if given.has off then some false else none

def crossfade? (given : Given) : Option Float := (given.value? .crossfade).bind Numeral.float?

def output? (given : Given) : Option Path := (given.value? .output).map Path.mk

def overrides (given : Given) : Overrides :=
  { format := given.value? .format
    bitrate := (given.value? .bitrate).bind bitrate?
    normalize := given.toggle .normalize .noNormalize
    crossfade := given.crossfade?
    writesCueSheet := given.toggle .cue .noCue }

/-- The command of a name with what is given for it. -/
def command? (given : Given) (name : String) (path : Path) : Option Command :=
  if name = "export" then some (.export path given.output? given.overrides)
  else if name = "validate" then some (.validate path)
  else if name = "info" then some (.info path given.crossfade?)
  else if name = "cue" then some (.cue path given.output? given.overrides)
  else if name = "graph" then some (.graph path given.output? (given.has .json) given.overrides)
  else none

end Given

/-- The command that a command line asks for. The path, which is not empty, is the only word that a
command takes. -/
def Command.ofArguments (arguments : List String) : Except Refusal Command := do
  let (name, rest) ← readLeading (.version :: commonOptions) {} arguments
  if name = "help" then .error (if isHelpTopic rest then .help else .usage)
  match optionsOf? name with
  | none => .error .usage
  | some options =>
    let given ← readWords (commonOptions ++ options) 1 {} none rest
    match given.words with
    | [path] =>
      if path = "" then .error .usage
      else match given.command? name ⟨path⟩ with
        | some command => .ok command
        | none => .error .usage
    | _ => .error .usage

end Segue.CommandLine
