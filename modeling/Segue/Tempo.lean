import Segue.Track.Basic

/-!
Tempo changes. One stretch takes rates from one half to two, so other rates are made of several; and
a ramp back to normal speed is a staircase of constant rates.
-/

namespace Segue.Tempo

/-- The lowest rate of a single stretch. -/
def slowest {α : Type} [Scalar α] : α := 0.5

/-- The highest rate of a single stretch. -/
def fastest {α : Type} [Scalar α] : α := 2

/-- No double needs more halvings or doublings than this to come between one half and two. -/
def maxSteps : Nat := 1100

variable {α : Type} [Scalar α]

/-- Divides by a factor for as long as the rest is out of bounds. Gives the factors taken out and
the rest. -/
def takeOut (factor : α) (outOfBounds : α → Bool) : Nat → α → List α × α
  | 0, rest => ([], rest)
  | steps + 1, rest =>
    if outOfBounds rest then
      let (factors, last) := takeOut factor outOfBounds steps (rest / factor)
      (factor :: factors, last)
    else ([], rest)

/-- The rates of single stretches that together give a rate. What remains beside other factors is
left out when it is nearly one. -/
def factors (rate : α) : List α :=
  if Scalar.isFinite rate && decide (0 < rate) then
    let (fast, rest) := takeOut fastest (fun rest => decide (fastest < rest)) maxSteps rate
    let (slow, rest) := takeOut slowest (fun rest => decide (rest < slowest)) maxSteps rest
    let found := fast ++ slow
    if found.isEmpty || decide (tolerance < Scalar.magnitude (rest - 1)) then found ++ [rest] else found
  else []

/-- A part of a track played at one rate. -/
structure Piece (α : Type) where
  start : α
  /-- Open for the last part, which lasts as long as the track does. -/
  stop : Option α
  rate : α
  deriving Repr, DecidableEq

/-- The count of steps of a ramp. More steps are smoother and make a larger graph. -/
def rampSteps : Nat := 8

/-- The steps of a ramp that starts at a rate and ends at one, each of the same width and at the rate
that the ramp has in the middle of it. -/
def staircase (rate start width : α) : List (Piece α) :=
  (List.range rampSteps).map fun step =>
    let middle : α := (Scalar.ofNat step + 0.5) / Scalar.ofNat rampSteps
    { start := start + width * Scalar.ofNat step
      stop := some (start + width * Scalar.ofNat (step + 1))
      rate := rate + (1 - rate) * middle }

/-- The parts of a track of some length whose tempo goes back to normal before a region ends: at the
rate up to the ramp, down the ramp, and unchanged behind it. -/
def rampPieces (rate rampStart regionEnd length : α) : List (Piece α) :=
  let regionEnd := Scalar.clamp 0 length regionEnd
  let rampStart := Scalar.clamp 0 regionEnd rampStart
  let lead : List (Piece α) :=
    if 0 < rampStart then [{ start := 0, stop := some rampStart, rate }] else []
  let width := (regionEnd - rampStart) / Scalar.ofNat rampSteps
  let ramp := lead ++ if 0 < width then staircase rate rampStart width else []
  if regionEnd < length ∨ ramp.isEmpty then ramp ++ [{ start := regionEnd, stop := none, rate := 1 }]
  else ramp

end Segue.Tempo
