import Segue.Numeral.Fixed
import Segue.Scalar

/-!
Times as text: minutes, seconds and frames for cue sheets, and minutes and seconds with milliseconds
for display.
-/

namespace Segue

/-- The largest whole number that a double from zero up does not fall below. From `2 ^ 53` on every
double is whole. -/
def wholePart (x : Float) : Float := if x < 9007199254740992.0 then x.toUInt64.toFloat else x

/-- The whole number nearest to a double from zero up; a half goes up. -/
def nearestWhole (x : Float) : Nat :=
  let whole := x.toUInt64
  if 0.5 ≤ x - whole.toFloat then whole.toNat + 1 else whole.toNat

/-- A whole number with at least two digits. -/
def twoDigits (n : Nat) : String := Numeral.padZeros 2 (toString n)

namespace CueTime

def framesPerSecond : Nat := 75

/-- The time that is shown: times before zero and undefined ones count as zero. -/
def shown (seconds : Float) : Float := if seconds.isFinite then Scalar.atLeast 0.0 seconds else 0.0

/-- The whole seconds of a time, in 64 bits. -/
def wholeSeconds (seconds : Float) : Nat := (shown seconds).toUInt64.toNat

/-- The frames beyond the whole seconds. A fraction that would round to a whole second stays at the
last frame before it. -/
def frames (seconds : Float) : Nat :=
  let seconds := shown seconds
  min (nearestWhole ((seconds - wholePart seconds) * 75.0)) (framesPerSecond - 1)

/-- The time as minutes, seconds and frames. -/
def text (seconds : Float) : String :=
  let whole := wholeSeconds seconds
  twoDigits (whole / 60) ++ ":" ++ twoDigits (whole % 60) ++ ":" ++ twoDigits (frames seconds)

end CueTime

/-- A length as minutes and seconds with three decimal places. -/
def durationText (seconds : Float) : String :=
  let seconds := Scalar.atLeast 0.0 seconds
  let minutes := wholePart (seconds / 60.0)
  let rest : Numeral.FixedStyle := { places := 3, width := 6 }
  toString minutes.toUInt64.toNat ++ ":" ++ rest.write (seconds - minutes * 60.0)

end Segue
