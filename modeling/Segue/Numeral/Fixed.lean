import Segue.Numeral.Parts

/-!
Numbers with a fixed count of decimal places. The exact value of the double is rounded once, and a
half goes to the even neighbour.
-/

namespace Segue.Numeral

/-- The natural number nearest to a fraction; a tie goes to the even one. -/
def roundHalfEven (above below : Nat) : Nat :=
  let whole := above / below
  let rest := 2 * (above % below)
  if rest < below then whole
  else if below < rest then whole + 1
  else whole + whole % 2

/-- Digits padded with zeros in front to a least length. -/
def padZeros (width : Nat) (digits : String) : String :=
  String.ofList (List.replicate (width - digits.length) '0') ++ digits

/-- The count of units in the last of `places` decimal places, as text with its point. -/
def unitsText (places units : Nat) : String :=
  let scale := Nat.pow 10 places
  let whole := toString (units / scale)
  if places = 0 then whole else whole ++ "." ++ padZeros places (toString (units % scale))

/-- How a number with fixed places is written beyond its digits. -/
structure FixedStyle where
  places : Nat
  /-- A plus stands before a number that is not negative. -/
  showsPlus : Bool := false
  /-- Zeros after the sign fill the text up to this length. -/
  width : Nat := 0
  deriving Repr, DecidableEq

/-- The text without its sign. -/
def FixedStyle.body (style : FixedStyle) : Parts → String
  | .undefined => "NaN"
  | .infinite _ => "inf"
  | .finite _ significand exponent =>
    let (above, below) := sizeFraction significand exponent
    unitsText style.places (roundHalfEven (above * Nat.pow 10 style.places) below)

def FixedStyle.sign (style : FixedStyle) : Parts → String
  | .undefined => ""
  | .infinite negative | .finite negative _ _ =>
    if negative then "-" else if style.showsPlus then "+" else ""

/-- The sign, then the body padded so that both together reach the width. -/
def FixedStyle.write (style : FixedStyle) (x : Float) : String :=
  let parts := Parts.ofFloat x
  let sign := style.sign parts
  sign ++ padZeros (style.width - sign.length) (style.body parts)

/-- A number with `places` decimal places. -/
def fixed (places : Nat) (x : Float) : String := FixedStyle.write { places } x

end Segue.Numeral
