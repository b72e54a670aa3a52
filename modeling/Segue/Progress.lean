import Segue.Numeral.Reading
import Segue.Scalar
import Segue.Text.Blank

/-!
How far a job is. Measuring fills the first part of the percentage and rendering the rest, in
proportion to what the engine says it has encoded.
-/

namespace Segue.Progress

variable {α : Type} [Scalar α]

/-- The percentage that belongs to measuring. -/
def measuringShare : α := 20

/-- The percentage after some of the tracks have been measured. -/
def afterMeasuring (done total : Nat) : α :=
  if total = 0 then measuringShare
  else measuringShare * (Scalar.ofNat (min done total) / Scalar.ofNat total)

/-- Where rendering is. -/
structure Rendering (α : Type) where
  percent : α
  /-- The seconds still to go, once anything has been encoded. -/
  remaining : Option α
  deriving Repr

/-- Where rendering is when so many seconds of the output have been encoded in so much time. -/
def rendering (encoded total elapsed : α) : Rendering α :=
  let fraction := if total ≤ 0 then 0 else Scalar.clamp 0 1 (encoded / total)
  { percent := measuringShare + fraction * (100 - measuringShare)
    remaining :=
      if 0 < fraction then some (Scalar.atLeast 0 (elapsed / fraction - elapsed)) else none }

/-- What the engine writes before the time it has reached. -/
def timeMark : List Char := "time=".toList

/-- The text cut at its first two colons. -/
def clockFields? (word : List Char) : Option (List Char × List Char × List Char) :=
  match word.dropWhile (· != ':') with
  | [] => none
  | _ :: rest =>
    match rest.dropWhile (· != ':') with
    | [] => none
    | _ :: seconds => some (word.takeWhile (· != ':'), rest.takeWhile (· != ':'), seconds)

/-- The seconds of a clock with hours, minutes and seconds, when they are a time from zero on. -/
def clock? (text : List Char) : Option Float := do
  let (hours, minutes, seconds) ← clockFields? (Text.firstWord text)
  let hours ← Numeral.float? (String.ofList hours)
  let minutes ← Numeral.float? (String.ofList minutes)
  let seconds ← Numeral.float? (String.ofList seconds)
  let total := hours * 3600.0 + minutes * 60.0 + seconds
  if total.isFinite ∧ 0.0 ≤ total then some total else none

/-- The seconds that have been encoded, from the last time in the text that can be read. -/
def elapsed? : List Char → Option Float
  | [] => none
  | c :: rest =>
    match elapsed? rest with
    | some seconds => some seconds
    | none => if timeMark.isPrefixOf (c :: rest) then clock? ((c :: rest).drop timeMark.length) else none

end Segue.Progress
