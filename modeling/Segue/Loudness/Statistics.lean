import Segue.Json.Reader
import Segue.Json.Writer
import Segue.Loudness.Block
import Segue.Text.Blank
import Segue.Track.Basic

/-!
Reading what a measuring run reports: four numbers in the last block of its output. The engine may
print other blocks before it.
-/

namespace Segue

/-- The largest count of arrays and objects inside each other that statistics may have. -/
def maxNesting : Nat := 127

namespace Json

mutual

/-- The count of arrays and objects inside each other. -/
def nesting : Json → Nat
  | .array found => nestingOfElements found + 1
  | .object found => nestingOfMembers found + 1
  | _ => 0

def nestingOfElements : List Json → Nat
  | [] => 0
  | head :: tail => max (nesting head) (nestingOfElements tail)

def nestingOfMembers : List (String × Json) → Nat
  | [] => 0
  | (_, head) :: tail => max (nesting head) (nestingOfMembers tail)

end

mutual

/-- Whether every part of a value can be read. -/
def isReadable : Json → Bool
  | .unreadable => false
  | .array found => areElementsReadable found
  | .object found => areMembersReadable found
  | _ => true

def areElementsReadable : List Json → Bool
  | [] => true
  | head :: tail => isReadable head && areElementsReadable tail

def areMembersReadable : List (String × Json) → Bool
  | [] => true
  | (_, head) :: tail => isReadable head && areMembersReadable tail

end

/-- Members in order of their names; the last of several with one name is kept. -/
def sortMembers (members : List (String × Json)) : List (String × Json) :=
  let kept := members.foldr
    (fun member later => if later.any (·.1 == member.1) then later else member :: later) []
  kept.mergeSort fun a b => decide (a.1 ≤ b.1)

mutual

/-- The value with the members of every object sorted and without repeated names. -/
def sorted : Json → Json
  | .array found => .array (sortedElements found)
  | .object found => .object (sortMembers (sortedMembers found))
  | json => json

def sortedElements : List Json → List Json
  | [] => []
  | head :: tail => sorted head :: sortedElements tail

def sortedMembers : List (String × Json) → List (String × Json)
  | [] => []
  | (name, head) :: tail => (name, sorted head) :: sortedMembers tail

end

end Json

/-- Why a measuring run gives no statistics. -/
inductive StatisticsError where
  | noBlock
  | malformed
  | missing (key : String)
  | unparsable (key : String) (value : Json)

def StatisticsError.message : StatisticsError → String
  | noBlock => "no loudness statistics block in engine output"
  | malformed => "malformed loudness statistics: not an object of readable values"
  | missing key => "loudness statistics missing '" ++ key ++ "'"
  | unparsable key value => "unparsable loudness value " ++ key ++ "=" ++ value.sorted.compact

namespace Measurement

/-- A finite number, given as such or as text. -/
def finiteNumber? : Json → Option Float
  | .int value => some (Float.ofInt value)
  | .float value => some value
  | .string text => (Numeral.float? (Text.trim text)).filter Float.isFinite
  | _ => none

/-- The members of a block, when it is an object that can be read throughout. -/
def members? (block : List Char) : Option (List (String × Json)) :=
  match Json.parse? (String.ofList block) with
  | some (.object found) =>
    if Json.isReadable (.object found) ∧ Json.nesting (.object found) ≤ maxNesting then some found else none
  | _ => none

/-- The value of a key; the last one counts. -/
def statistic (members : List (String × Json)) (key : String) : Except StatisticsError Float :=
  match members.reverse.lookup key with
  | none => .error (.missing key)
  | some value =>
    match finiteNumber? value with
    | some number => .ok number
    | none => .error (.unparsable key value)

/-- The measurement that the output of a measuring run ends in. -/
def ofOutput (output : List Char) : Except StatisticsError (Measurement Float) := do
  let some block := Block.last? output | .error .noBlock
  let some members := members? block | .error .malformed
  return {
    integrated := ← statistic members "input_i"
    truePeak := ← statistic members "input_tp"
    range := ← statistic members "input_lra"
    threshold := ← statistic members "input_thresh" }

end Measurement

end Segue
