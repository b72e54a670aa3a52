/-!
Times, lengths, rates and gains are computed over one small interface. Doubles meet it, and a render
runs on them; rationals meet it too, and say what the same computation gives without rounding.
-/

namespace Segue

/-- Numbers with the four operations, a comparison, and a total order for sorting. -/
class Scalar (α : Type) extends Add α, Sub α, Mul α, Div α, Neg α, LT α, LE α, OfScientific α where
  ofNat : Nat → α
  decLt : DecidableLT α
  decLe : DecidableLE α
  /-- A total order that agrees with `<` on ordinary numbers. -/
  sortsBefore : α → α → Bool
  isFinite : α → Bool

namespace Scalar

instance (priority := low) instOfNat {α : Type} [Scalar α] (n : Nat) : OfNat α n := ⟨ofNat n⟩

instance (priority := low) {α : Type} [Scalar α] : DecidableLT α := decLt

instance (priority := low) {α : Type} [Scalar α] : DecidableLE α := decLe

/-- The key that orders doubles by sign and magnitude: negative numbers below positive ones, and a
negative zero below a positive one. -/
def floatKey (x : Float) : Int :=
  let bits := x.toBits.toNat
  if bits < Nat.pow 2 63 then (bits : Int) else -(bits - Nat.pow 2 63 : Nat) - 1

instance : Scalar Float where
  ofNat := Float.ofNat
  decLt := inferInstance
  decLe := inferInstance
  sortsBefore x y := decide (floatKey x ≤ floatKey y)
  isFinite := Float.isFinite

instance : Scalar Rat where
  ofNat n := (n : Rat)
  decLt := inferInstance
  decLe := inferInstance
  sortsBefore x y := decide (x ≤ y)
  isFinite _ := true

variable {α : Type} [Scalar α]

/-- The value, or the bound when the value does not exceed it. -/
def atLeast (bound x : α) : α := if bound < x then x else bound

/-- The larger of two numbers; the second when they tie, the other one when one is undefined. -/
def larger (x y : α) : α := if y < x then x else if y ≤ y then y else x

/-- The smaller of two numbers; the second when they tie, the other one when one is undefined. -/
def smaller (x y : α) : α := if x < y then x else if y ≤ y then y else x

/-- The point of `[low, high]` nearest to the value. -/
def clamp (low high x : α) : α := if x < low then low else if high < x then high else x

def magnitude (x : α) : α := if x < 0 then -x else x

/-- The sum of a list from left to right. The empty sum is a negative zero, which adds nothing. -/
def total (xs : List α) : α := xs.foldl (· + ·) (-0)

end Scalar

end Segue
