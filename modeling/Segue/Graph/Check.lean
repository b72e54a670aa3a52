import Segue.Graph.Basic

/-!
Checking the labels of a graph. Every link is produced once, before it is consumed, and consumed at
most once; engine inputs are in range and consumed at most once; and one link stays open.
-/

namespace Segue

/-- Why a graph cannot be built. -/
inductive GraphError where
  | noFilters (stage : Nat)
  | inputOutOfRange (stage : Nat) (pad : Pad) (inputCount : Nat)
  | notYetProduced (stage : Nat) (pad : Pad)
  | consumedTwice (pad : Pad)
  | producedTwice (pad : Pad)
  | noOutput
  | manyOutputs (pads : List Pad)
  | noTracks
  | transitionCount (tracks transitions : Nat)
  | wrongOutput (found expected : Pad)
  deriving Repr, DecidableEq

def GraphError.message : GraphError → String
  | noFilters stage => "stage " ++ toString stage ++ " has no filters"
  | inputOutOfRange stage pad inputCount =>
    "stage " ++ toString stage ++ " reads " ++ pad.text ++ " but only " ++ toString inputCount
      ++ " inputs exist"
  | notYetProduced stage pad =>
    "stage " ++ toString stage ++ " consumes " ++ pad.text ++ " before it is produced"
  | consumedTwice pad => pad.text ++ " is consumed twice"
  | producedTwice pad => pad.text ++ " is produced twice"
  | noOutput => "graph has no output"
  | manyOutputs pads =>
    "graph has " ++ toString pads.length ++ " unconnected outputs: " ++ String.join (pads.map Pad.text)
  | noTracks => "cannot build a mix with zero tracks"
  | transitionCount tracks transitions =>
    toString tracks ++ " tracks need " ++ toString (tracks - 1) ++ " transitions, got "
      ++ toString transitions
  | wrongOutput found expected => "graph ends at " ++ found.text ++ ", expected " ++ expected.text

namespace Graph

/-- The pads that the stages seen so far have produced and consumed, in order. -/
structure Usage where
  produced : List Pad := []
  consumed : List Pad := []
  deriving Repr

/-- Consumes the inputs of a stage one by one. -/
def Usage.consume (inputCount stage : Nat) (usage : Usage) : List Pad → Except GraphError Usage
  | [] => .ok usage
  | pad :: rest =>
    match pad.inputIndex? with
    | some index =>
      if inputCount ≤ index then .error (.inputOutOfRange stage pad inputCount)
      else if usage.consumed.contains pad then .error (.consumedTwice pad)
      else consume inputCount stage { usage with consumed := usage.consumed ++ [pad] } rest
    | none =>
      if !usage.produced.contains pad then .error (.notYetProduced stage pad)
      else if usage.consumed.contains pad then .error (.consumedTwice pad)
      else consume inputCount stage { usage with consumed := usage.consumed ++ [pad] } rest

/-- Produces the outputs of a stage one by one. -/
def Usage.produce (usage : Usage) : List Pad → Except GraphError Usage
  | [] => .ok usage
  | pad :: rest =>
    if pad.isInput || usage.produced.contains pad then .error (.producedTwice pad)
    else produce { usage with produced := usage.produced ++ [pad] } rest

/-- Goes through the stages from one of a given index on. -/
def Usage.run {φ : Type} (inputCount : Nat) : Nat → Usage → Graph φ → Except GraphError Usage
  | _, usage, [] => .ok usage
  | index, usage, stage :: rest =>
    if stage.filters.isEmpty then .error (.noFilters index)
    else do
      let usage ← usage.consume inputCount index stage.inputs
      let usage ← usage.produce stage.outputs
      run inputCount (index + 1) usage rest

/-- The links that nothing consumes, in the order they are produced in. -/
def Usage.open (usage : Usage) : List Pad :=
  usage.produced.filter fun pad => !usage.consumed.contains pad

/-- The one open link of a graph over some count of engine inputs. -/
def output {φ : Type} (graph : Graph φ) (inputCount : Nat) : Except GraphError Pad := do
  let usage ← Usage.run inputCount 0 {} graph
  match usage.open with
  | [only] => .ok only
  | [] => .error .noOutput
  | pads => .error (.manyOutputs pads)

end Graph

end Segue
