/-!
A double taken apart: its sign and its exact value as a natural number times a power of two.
-/

namespace Segue.Numeral

/-- What the bits of a double say. -/
inductive Parts where
  | undefined
  | infinite (negative : Bool)
  /-- The number of size `significand * 2 ^ exponent`. -/
  | finite (negative : Bool) (significand : Nat) (exponent : Int)
  deriving Repr, DecidableEq

/-- A double has a sign bit, eleven exponent bits and fifty-two fraction bits. The least exponent
field keeps the leading bit at zero, the greatest one is left to infinity and the undefined value. -/
def Parts.ofFloat (x : Float) : Parts :=
  let bits := x.toBits.toNat
  let negative := decide (Nat.pow 2 63 ≤ bits)
  let field : Nat := bits / Nat.pow 2 52 % Nat.pow 2 11
  let fraction : Nat := bits % Nat.pow 2 52
  if field = 2047 then
    if fraction = 0 then .infinite negative else .undefined
  else if field = 0 then .finite negative fraction (-1074)
  else .finite negative (Nat.pow 2 52 + fraction) ((field : Int) - 1075)

/-- The size of a finite double as a fraction of natural numbers. -/
def sizeFraction (significand : Nat) (exponent : Int) : Nat × Nat :=
  if 0 ≤ exponent then (significand * Nat.pow 2 exponent.toNat, 1)
  else (significand, Nat.pow 2 (-exponent).toNat)

/-- The sign that stands before a number, where only a minus is written. -/
def minusSign (negative : Bool) : String := if negative then "-" else ""

end Segue.Numeral
