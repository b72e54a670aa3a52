import Segue.Numeral.Shortest
import Segue.Path
import Segue.Scalar

/-!
The loudness that normalized tracks are brought to, and the engine run that measures one source.
-/

namespace Segue

/-- What normalization aims at. -/
structure LoudnessTargets (α : Type) where
  /-- Integrated loudness in loudness units below full scale. -/
  integrated : α
  /-- The ceiling of the true peak in decibels below full scale. -/
  truePeak : α
  /-- Loudness range in loudness units. -/
  range : α
  deriving Repr

namespace LoudnessTargets

/-- The targets of every export. -/
def standard {α : Type} [Scalar α] : LoudnessTargets α :=
  { integrated := -14, truePeak := -1, range := 11 }

/-- The options that both passes give the engine. -/
def optionsText (targets : LoudnessTargets Float) : String :=
  "I=" ++ Numeral.plain targets.integrated ++ ":TP=" ++ Numeral.plain targets.truePeak
    ++ ":LRA=" ++ Numeral.plain targets.range

end LoudnessTargets

/-- The arguments of the engine run that only measures a source. -/
def measuringArguments (source : Path) (targets : LoudnessTargets Float) : List String :=
  ["-hide_banner", "-nostats", "-i", source.text, "-af",
    "loudnorm=" ++ targets.optionsText ++ ":print_format=json", "-f", "null", "-"]

end Segue
