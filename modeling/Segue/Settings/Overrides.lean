import Segue.Failure
import Segue.Numeral.Shortest
import Segue.Settings.Basic

/-!
Settings given for one export only, on top of the remembered ones.
-/

namespace Segue

/-- What is given for one export; the rest is as remembered. -/
structure Overrides where
  format : Option String := none
  bitrate : Option Nat := none
  normalize : Option Bool := none
  crossfade : Option Float := none
  writesCueSheet : Option Bool := none
  deriving Repr

/-- The format of a name, or the failure that names it. -/
def AudioFormat.ofText (text : String) : Except Failure AudioFormat :=
  match ofText? text with
  | some format => .ok format
  | none =>
    .error (.config ("Unknown format: " ++ foldName text ++ ". Use: wav, flac, mp3"))

/-- A crossfade has a length from zero up. -/
def checkCrossfade (seconds : Float) : Except Failure Float :=
  if seconds.isFinite ∧ 0.0 ≤ seconds then .ok seconds
  else .error (.other ("Crossfade must be a non-negative number of seconds, got "
    ++ Numeral.plain seconds))

/-- The settings with what is given in place of what is remembered. -/
def Overrides.apply (overrides : Overrides) (settings : ExportSettings) :
    Except Failure ExportSettings := do
  return { settings with
    format := ← (overrides.format.map AudioFormat.ofText).getD (.ok settings.format)
    bitrate := overrides.bitrate.getD settings.bitrate
    normalize := overrides.normalize.getD settings.normalize
    defaultCrossfade := ← (overrides.crossfade.map checkCrossfade).getD (.ok settings.defaultCrossfade)
    writesCueSheet := overrides.writesCueSheet.getD settings.writesCueSheet }

end Segue
