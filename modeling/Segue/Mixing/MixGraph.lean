import Segue.Graph.Check
import Segue.Mixing.Chain
import Segue.Project.Basic

/-!
The graph of a whole mix: the chains of all tracks, then the transitions that join them from left to
right. A transition with a length is a crossfade, one without is a plain join.
-/

namespace Segue

/-- The chains of a mix and the stages that join them. -/
structure MixGraph (φ : Type) where
  chains : List (Chain φ)
  transitions : Graph φ
  output : Pad
  deriving Repr

namespace MixGraph

/-- All stages in order: every chain, then every transition. -/
def stages {φ : Type} (mix : MixGraph φ) : Graph φ := mix.chains.flatMap Chain.stages ++ mix.transitions

/-- The single output of a mix. -/
def finalPad : Pad := ⟨"out"⟩

/-- The link behind a transition that is not the last one; the first has the number one. -/
def foldPad (number : Nat) : Pad := ⟨"x" ++ toString number⟩

variable {α : Type} [Scalar α]

def transitionEffect (transition : Transition α) : Effect α :=
  if 0 < transition.duration then .crossfade transition.duration transition.curve else .append 2

def transitionStage (transition : Transition α) (carried next output : Pad) : Stage (Effect α) :=
  { inputs := [carried, next], filters := [transitionEffect transition], outputs := [output] }

/-- Joins what has been mixed so far to each next track in turn. -/
def joinFrom (carried : Pad) (number : Nat) : List (Pad × Transition α) → Graph (Effect α)
  | [] => []
  | [(next, transition)] => [transitionStage transition carried next finalPad]
  | (next, transition) :: rest =>
    transitionStage transition carried next (foldPad number) :: joinFrom (foldPad number) (number + 1) rest

/-- Chains and transitions put together, not yet checked. A single chain ends in the final output
itself. -/
def assemble (first : Chain (Effect α)) (others : List (Chain (Effect α)))
    (transitions : List (Transition α)) : MixGraph (Effect α) :=
  if others.isEmpty then
    { chains := [first.relabel finalPad], transitions := [], output := finalPad }
  else
    { chains := first :: others
      transitions := joinFrom first.output 1 ((others.map Chain.output).zip transitions)
      output := finalPad }

/-- The graph of a mix from one chain per track and one transition per pair of neighbours. -/
def ofChains (chains : List (Chain (Effect α))) (transitions : List (Transition α)) :
    Except GraphError (MixGraph (Effect α)) :=
  match chains with
  | [] => .error .noTracks
  | first :: others =>
    if transitions.length ≠ others.length then
      .error (.transitionCount chains.length transitions.length)
    else do
      let mix := assemble first others transitions
      let found ← Graph.output mix.stages chains.length
      if found = mix.output then .ok mix else .error (.wrongOutput found mix.output)

/-- The text of the graph for the engine. -/
def text (mix : MixGraph (Effect Float)) : String := Graph.text (Graph.filters mix.stages)

end MixGraph

end Segue
