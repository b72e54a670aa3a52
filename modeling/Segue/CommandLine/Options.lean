import Segue.Numeral.Reading

/-!
The options of the command line and how they are told from other words. A long option follows two
dashes, and short ones share one. A value stands behind an equals sign, behind the short letter, or in
the next word, which then may not start with a dash unless it is one. Two dashes alone end the options.
-/

namespace Segue.CommandLine

/-- An option. -/
inductive OptionName where
  | verbose
  | help
  | version
  | output
  | format
  | bitrate
  | normalize
  | noNormalize
  | crossfade
  | cue
  | noCue
  | json
  deriving Repr, DecidableEq

namespace OptionName

def long : OptionName → String
  | verbose => "verbose"
  | help => "help"
  | version => "version"
  | output => "output"
  | format => "format"
  | bitrate => "bitrate"
  | normalize => "normalize"
  | noNormalize => "no-normalize"
  | crossfade => "crossfade"
  | cue => "cue"
  | noCue => "no-cue"
  | json => "json"

def short? : OptionName → Option Char
  | verbose => some 'v'
  | help => some 'h'
  | version => some 'V'
  | output => some 'o'
  | _ => none

def takesValue : OptionName → Bool
  | output | format | bitrate | crossfade => true
  | _ => false

/-- The option that says the contrary. Of the two, the later one counts. -/
def contrary? : OptionName → Option OptionName
  | normalize => some noNormalize
  | noNormalize => some normalize
  | cue => some noCue
  | noCue => some cue
  | _ => none

end OptionName

/-- A bitrate, which fits in 32 bits. A minus is only possible before zero. -/
def bitrate? (text : String) : Option Nat :=
  match text.toList with
  | '-' :: digits => (Numeral.natBelow? 1 (String.ofList digits)).filter fun _ => digits.head? ≠ some '+'
  | _ => Numeral.natBelow? (Nat.pow 2 32) text

/-- Whether a value can be that of an option. -/
def OptionName.accepts (name : OptionName) (value : String) : Bool :=
  match name with
  | output => value != ""
  | bitrate => (bitrate? value).isSome
  | crossfade => (Numeral.float? value).isSome
  | _ => true

/-- Why a command line asks for no command. -/
inductive Refusal where
  /-- It is not understood. -/
  | usage
  /-- It asks for an explanation. -/
  | help
  /-- It asks for the version. -/
  | version
  deriving Repr, DecidableEq

/-- What has been read of a command line. -/
structure Given where
  /-- The options with their values, empty for those without one. -/
  options : List (OptionName × String) := []
  /-- The words that are no options. -/
  words : List String := []
  deriving Repr, DecidableEq

namespace Given

def has (given : Given) (name : OptionName) : Bool := (given.options.lookup name).isSome

/-- Adds an option, which may not be there already, and takes its contrary away. -/
def add (given : Given) (name : OptionName) (value : String) : Except Refusal Given :=
  if given.has name ∨ !name.accepts value then .error .usage
  else match name with
    | .help => .error .help
    | .version => .error .version
    | _ =>
      let kept := given.options.filter fun option => name.contrary? ≠ some option.1
      .ok { given with options := kept ++ [(name, value)] }

def addWord (given : Given) (word : String) : Given := { given with words := given.words ++ [word] }

end Given

/-- Whether a word is read as options. A dash alone is not. -/
def isDashed (word : String) : Bool := word.toList.head? == some '-' && word != "-"

/-- An option that still needs its value. -/
abbrev Pending := Option OptionName

/-- Reads a long option without its dashes. -/
def readLong (allowed : List OptionName) (given : Given) (text : List Char) :
    Except Refusal (Given × Pending) := do
  let name := String.ofList (text.takeWhile (· != '='))
  let value := text.dropWhile (· != '=')
  match allowed.find? fun option => option.long = name with
  | none => .error .usage
  | some option =>
    match value, option.takesValue with
    | [], true => return (given, some option)
    | [], false => return (← given.add option "", none)
    | _ :: value, true => return (← given.add option (String.ofList value), none)
    | _ :: _, false => .error .usage

/-- Reads short options without their dash, up to one that takes a value. -/
def readShort (allowed : List OptionName) (given : Given) : List Char → Except Refusal (Given × Pending)
  | [] => .ok (given, none)
  | c :: rest => do
    match allowed.find? fun option => option.short? = some c with
    | none => .error .usage
    | some option =>
      if option.takesValue then
        match rest with
        | [] => return (given, some option)
        | '=' :: value => return (← given.add option (String.ofList value), none)
        | value => return (← given.add option (String.ofList value), none)
      else readShort allowed (← given.add option "") rest

/-- Reads a word that is read as options. -/
def readDashed (allowed : List OptionName) (given : Given) (word : String) :
    Except Refusal (Given × Pending) :=
  match word.toList with
  | '-' :: '-' :: text => readLong allowed given text
  | _ :: text => readShort allowed given text
  | [] => .error .usage

/-- Reads the words behind a command, where at most `most` words may be no options. -/
def readWords (allowed : List OptionName) (most : Nat) (given : Given) :
    Pending → List String → Except Refusal Given
  | none, [] => .ok given
  | some _, [] => .error .usage
  | some option, value :: rest => do
    if isDashed value then .error .usage
    else readWords allowed most (← given.add option value) none rest
  | none, word :: rest => do
    if word = "--" then
      let given := rest.foldl Given.addWord given
      if given.words.length ≤ most then return given else .error .usage
    else if isDashed word then
      let (given, pending) ← readDashed allowed given word
      readWords allowed most given pending rest
    else if given.words.length < most then readWords allowed most (given.addWord word) none rest
    else .error .usage

/-- Reads the options before a command, and leaves the words from the command on. -/
def readLeading (allowed : List OptionName) (given : Given) :
    List String → Except Refusal (String × List String)
  | [] => .error .usage
  | word :: rest => do
    if word = "--" then .error .usage
    else if isDashed word then
      let (given, pending) ← readDashed allowed given word
      if pending.isSome then .error .usage else readLeading allowed given rest
    else return (word, rest)

end Segue.CommandLine
