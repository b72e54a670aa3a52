import Segue.Numeral.Parts

/-!
Reading decimal numbers as the nearest double, a tie going to the even significand. The grammar here
is the liberal one of clocks, option values and quoted statistics: a sign, digits with a point
anywhere among them, an exponent, or a word for infinity or the undefined value.
-/

namespace Segue.Numeral

/-- The value of a run of decimal digits. -/
def digitsValue (digits : List Char) : Nat :=
  digits.foldl (fun value digit => 10 * value + (digit.toNat - '0'.toNat)) 0

/-- The double nearest to `± digits * 10 ^ exponent`. Exponents that no digit count can bring back
into range are settled without computing the power. -/
def nearest (negative : Bool) (digits : Nat) (exponent : Int) : Float :=
  let lead := exponent + (toString digits).length
  let size : Float :=
    if digits = 0 ∨ lead < -400 then 0.0
    else if 400 < lead then 1.0 / 0.0
    else Float.ofScientific digits (exponent < 0) exponent.natAbs
  if negative then -size else size

/-- Removes a leading sign and says whether it was a minus. -/
def splitSign : List Char → Bool × List Char
  | '-' :: rest => (true, rest)
  | '+' :: rest => (false, rest)
  | text => (false, text)

/-- An optional exponent that ends the text. -/
def exponent? : List Char → Option Int
  | [] => some 0
  | mark :: rest =>
    if mark = 'e' ∨ mark = 'E' then
      let (negative, digits) := splitSign rest
      if digits ≠ [] ∧ digits.all Char.isDigit then
        some (if negative then -digitsValue digits else digitsValue digits)
      else none
    else none

/-- Digits with an optional point and an optional exponent; at least one digit stands before the
exponent. -/
def unsigned? (negative : Bool) (text : List Char) : Option Float :=
  let whole := text.takeWhile Char.isDigit
  let rest := text.dropWhile Char.isDigit
  let (places, rest) := match rest with
    | '.' :: rest => (rest.takeWhile Char.isDigit, rest.dropWhile Char.isDigit)
    | rest => ([], rest)
  if whole = [] ∧ places = [] then none
  else (exponent? rest).map fun exponent =>
    nearest negative (digitsValue (whole ++ places)) (exponent - places.length)

/-- Reads a number in the liberal grammar; nothing may stand around it. -/
def float? (text : String) : Option Float :=
  let (negative, body) := splitSign text.toList
  let word := body.map Char.toLower
  if word = "inf".toList ∨ word = "infinity".toList then
    some (if negative then -1.0 / 0.0 else 1.0 / 0.0)
  else if word = "nan".toList then some (0.0 / 0.0)
  else unsigned? negative body

/-- Reads a natural number below a bound: an optional plus and at least one digit. -/
def natBelow? (bound : Nat) (text : String) : Option Nat :=
  let digits := match text.toList with
    | '+' :: rest => rest
    | digits => digits
  if digits ≠ [] ∧ digits.all Char.isDigit then
    let value := digitsValue digits
    if value < bound then some value else none
  else none

end Segue.Numeral
