import Segue.Numeral.Fixed
import Segue.Track.Basic

/-!
Volume automation as one expression of time: the first value before the first breakpoint, straight
lines between neighbours, and the last value from the last one on. Breakpoints at one time make a
step.
-/

namespace Segue.Envelope

/-- A gain that depends on time. -/
inductive Expr (α : Type) where
  | constant (value : α)
  /-- The line that has a value at a time and grows by `growth` in each `span`. -/
  | line (value growth time span : α)
  /-- One expression before a time and another from it on. -/
  | until (time : α) (before after : Expr α)
  deriving Repr

/-- Lines are at least this long, so that a step divides by something. -/
def leastSpan {α : Type} [Scalar α] : α := 0.0001

variable {α : Type} [Scalar α]

/-- The gain at a time. -/
def Expr.value (time : α) : Expr α → α
  | constant value => value
  | line value growth start span => value + growth * (time - start) / span
  | .until bound before after => if time < bound then before.value time else after.value time

/-- The line from one breakpoint to the next. -/
def segment (first second : VolumePoint α) : Expr α :=
  .line first.value (second.value - first.value) first.time
    (Scalar.atLeast leastSpan (second.time - first.time))

/-- The gain from a breakpoint on, given the later ones in order. -/
def gainFrom (first : VolumePoint α) : List (VolumePoint α) → Expr α
  | [] => .constant first.value
  | second :: rest => .until second.time (segment first second) (gainFrom second rest)

/-- The gain that breakpoints describe, in whatever order they are given. No breakpoint leaves the
volume as it is. -/
def gain (points : List (VolumePoint α)) : Expr α :=
  match points.mergeSort fun a b => Scalar.sortsBefore a.time b.time with
  | [] => .constant 1
  | [only] => .constant only.value
  | first :: rest => .until first.time (.constant first.value) (gainFrom first rest)

/-- The breakpoints with every value multiplied by a factor. -/
def scaled (factor : α) (points : List (VolumePoint α)) : List (VolumePoint α) :=
  points.map fun point => { point with value := point.value * factor }

/-- A number as it stands in filter options: six decimal places. -/
def number (x : Float) : String := Numeral.fixed 6 x

/-- The expression in the engine's notation, where `t` is the time. -/
def Expr.text : Expr Float → String
  | constant value => number value
  | line value growth start span =>
    number value ++ "+(" ++ number growth ++ ")*(t-" ++ number start ++ ")/" ++ number span
  | .until bound before after =>
    "if(lt(t," ++ number bound ++ ")," ++ before.text ++ "," ++ after.text ++ ")"

end Segue.Envelope
