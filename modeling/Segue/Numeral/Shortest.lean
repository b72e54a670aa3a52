import Segue.Numeral.Parts

/-!
The fewest decimal digits that read back to the same double, and the ways of laying them out.

A decimal reads back when it lies in the interval of the reals nearer to the double than to its
neighbours; the ends belong to it when the significand is even. A decimal grid with a point in that
interval has one next to the double itself, so the two neighbours on each grid are all that is tried.
-/

namespace Segue.Numeral

/-- The number `digits * 10 ^ exponent`. -/
structure Decimal where
  digits : Nat
  exponent : Int
  deriving Repr, DecidableEq

/-- The reals that round to a double, scaled so that all three are natural numbers. -/
structure RoundingInterval where
  low : Nat
  centre : Nat
  high : Nat
  /-- The natural number that stands for one. -/
  one : Nat
  closed : Bool
  deriving Repr

/-- Below the least significand of a binade the neighbour is only half as far. -/
def RoundingInterval.ofParts (significand : Nat) (exponent : Int) : RoundingInterval :=
  let below := if significand = Nat.pow 2 52 ∧ -1074 < exponent then 1 else 2
  let closed := significand % 2 = 0
  if 2 ≤ exponent then
    let unit := Nat.pow 2 (exponent - 2).toNat
    { low := (4 * significand - below) * unit, centre := 4 * significand * unit,
      high := (4 * significand + 2) * unit, one := 1, closed }
  else
    { low := 4 * significand - below, centre := 4 * significand, high := 4 * significand + 2,
      one := Nat.pow 2 (2 - exponent).toNat, closed }

/-- Both sides of `n * 10 ^ exponent` compared with `scaled / one`, as natural numbers. -/
def gridSides (one : Nat) (exponent : Int) (n scaled : Nat) : Nat × Nat :=
  if 0 ≤ exponent then (n * Nat.pow 10 exponent.toNat * one, scaled)
  else (n * one, scaled * Nat.pow 10 (-exponent).toNat)

/-- Whether the grid point `n * 10 ^ exponent` reads back to the double. -/
def RoundingInterval.holds (interval : RoundingInterval) (exponent : Int) (n : Nat) : Bool :=
  let (point, low) := gridSides interval.one exponent n interval.low
  let (_, high) := gridSides interval.one exponent n interval.high
  if interval.closed then low ≤ point && point ≤ high else low < point && point < high

/-- Which of two decimals is taken when the double lies in the middle between them. -/
inductive Tie where
  | toLarger
  | toEven
  deriving Repr, DecidableEq

/-- Whether the middle above a natural number goes down to it. -/
def Tie.goesDown (tie : Tie) (below : Nat) : Bool :=
  match tie with
  | toLarger => false
  | toEven => below % 2 = 0

/-- The nearer of the two neighbours on the grid of step `10 ^ exponent` that read back. -/
def RoundingInterval.onGrid? (interval : RoundingInterval) (tie : Tie) (exponent : Int) : Option Nat :=
  let (step, centre) := gridSides interval.one exponent 1 interval.centre
  let below := centre / step
  let above := below + 1
  let rest := 2 * (centre % step)
  match interval.holds exponent below && 0 < below, interval.holds exponent above with
  | true, true => some (if rest < step ∨ rest = step ∧ tie.goesDown below then below else above)
  | true, false => some below
  | false, true => some above
  | false, false => none

/-- The first of `count` ever finer grids that has a point reading back. -/
def RoundingInterval.coarsest (interval : RoundingInterval) (tie : Tie) (exponent : Int) : Nat → Decimal
  | 0 => { digits := 0, exponent }
  | count + 1 =>
    match interval.onGrid? tie exponent with
    | some digits => { digits, exponent }
    | none => interval.coarsest tie (exponent - 1) count

/-- The count of decimal digits of a natural number. -/
def digitCount (n : Nat) : Nat := (toString n).length

/-- A power of ten at or above the number, found from the digit counts of its fraction. -/
def leadingExponent (significand : Nat) (exponent : Int) : Int :=
  let (above, below) := sizeFraction significand exponent
  (digitCount above : Int) - digitCount below + 1

/-- The shortest decimal of a positive double. Twenty grids reach from above the number past its
seventeenth digit, where one always reads back. -/
def shortest (tie : Tie) (significand : Nat) (exponent : Int) : Decimal :=
  (RoundingInterval.ofParts significand exponent).coarsest tie (leadingExponent significand exponent) 20

/-- Where the point and the exponent go, and what is written for a whole number. -/
structure Layout where
  /-- The choice between two shortest decimals that are equally near. -/
  tie : Tie
  /-- Numbers from `10 ^ least` up are written out. -/
  least : Option Int
  /-- Numbers from `10 ^ bound` up are written with an exponent. -/
  bound : Option Int
  /-- A whole number keeps a zero behind the point. -/
  keepsPoint : Bool
  deriving Repr, DecidableEq

/-- All digits written out, and no point behind a whole number. -/
def Layout.plain : Layout := { tie := .toLarger, least := none, bound := none, keepsPoint := false }

/-- Whether a number whose leading digit stands for `10 ^ lead` is written out. -/
def Layout.isPositional (layout : Layout) (lead : Int) : Bool :=
  layout.least.all (· ≤ lead) && layout.bound.all (lead < ·)

def zeros (count : Nat) : String := String.ofList (List.replicate count '0')

/-- Digits with the point where the exponent puts it. -/
def positional (keepsPoint : Bool) (digits : String) (exponent : Int) : String :=
  if 0 ≤ exponent then digits ++ zeros exponent.toNat ++ (if keepsPoint then ".0" else "")
  else
    let places := (-exponent).toNat
    if places < digits.length then
      String.ofList (digits.toList.take (digits.length - places)) ++ "."
        ++ String.ofList (digits.toList.drop (digits.length - places))
    else "0." ++ zeros (places - digits.length) ++ digits

/-- One digit, the others behind the point, and a signed power of ten. -/
def scientific (digits : String) (lead : Int) : String :=
  let mantissa := match digits.toList with
    | [] => ""
    | [digit] => String.ofList [digit]
    | first :: rest => String.ofList (first :: '.' :: rest)
  mantissa ++ "e" ++ (if lead < 0 then "-" else "+") ++ toString lead.natAbs

/-- The text of a nonnegative finite number. -/
def Layout.size (layout : Layout) (significand : Nat) (exponent : Int) : String :=
  if significand = 0 then positional layout.keepsPoint "0" 0
  else
    let decimal := shortest layout.tie significand exponent
    let digits := toString decimal.digits
    let lead := decimal.exponent + digits.length - 1
    if layout.isPositional lead then positional layout.keepsPoint digits decimal.exponent
    else scientific digits lead

/-- The shortest text of a double in a layout. -/
def Layout.write (layout : Layout) (x : Float) : String :=
  match Parts.ofFloat x with
  | .undefined => "NaN"
  | .infinite negative => minusSign negative ++ "inf"
  | .finite negative significand exponent => minusSign negative ++ layout.size significand exponent

/-- The shortest text without an exponent. -/
def plain (x : Float) : String := Layout.plain.write x

end Segue.Numeral
