import Segue.Json.Basic
import Segue.Numeral.Reading

/-!
The value of a number that is written out. Its digits are gathered in a significand of 64 bits, and
digits that find no room there are dropped; the significand is then brought to its size by powers of
ten that are doubles themselves. Every step rounds, so the value is close to what is written, but
need not be the nearest double.
-/

namespace Segue.Json

/-- The first natural number that a significand has no room for. -/
def significandBound : Nat := Nat.pow 2 64

/-- A significand with digits put behind it as long as there is room, and the count of digits that
are left over. From the first digit without room on, all are. -/
def gather (significand : Nat) : List Char → Nat × Nat
  | [] => (significand, 0)
  | digit :: rest =>
    let longer := 10 * significand + Numeral.digitsValue [digit]
    if longer < significandBound then gather longer rest else (significand, rest.length + 1)

/-- The greatest exponent of a power of ten among the doubles. -/
def greatestPower : Nat := 308

/-- A power of ten, as the nearest double. -/
def powerOfTen (exponent : Nat) : Float := Float.ofScientific 1 false exponent

/-- A size brought up or down by a power of ten in as few steps as there are powers for. Nothing when
it grows beyond the doubles; zero stays, however large the power. -/
def scale? (size : Float) (exponent : Int) : Option Float :=
  if exponent < -greatestPower then
    if size == 0.0 then some size else scale? (size / powerOfTen greatestPower) (exponent + greatestPower)
  else if exponent < 0 then some (size / powerOfTen exponent.natAbs)
  else if exponent ≤ greatestPower then
    some (size * powerOfTen exponent.natAbs) |>.filter Float.isFinite
  else if size == 0.0 then some size
  else none
termination_by exponent.natAbs
decreasing_by simp only [greatestPower] at *; omega

/-- The size of a number from the digits before and behind its point and its exponent. Digits before
the point that are left over still count as places, those behind it do not. -/
def size? (whole behind : List Char) (exponent : Int) : Option Float :=
  let (significand, wholeLeft) := gather 0 whole
  let (significand, behindLeft) := gather significand behind
  let shift : Int := wholeLeft - (behind.length - behindLeft : Nat)
  scale? (Float.ofNat significand) (shift + exponent)

/-- The value of a number. Whole numbers within 64 bits stay whole, a negative zero apart; a number
beyond the doubles has no value. -/
def numberValue (negative : Bool) (whole : List Char) (places : Option (List Char))
    (exponent : Option Int) : Json :=
  let value := Numeral.digitsValue whole
  let isWhole := places.isNone && exponent.isNone
  if isWhole && !negative && value < Nat.pow 2 64 then .int value
  else if isWhole && negative && 0 < value && value ≤ Nat.pow 2 63 then .int (-value)
  else match size? whole (places.getD []) (exponent.getD 0) with
    | some size => .float (if negative then -size else size)
    | none => .unreadable

end Segue.Json
