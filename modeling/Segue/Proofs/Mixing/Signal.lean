import Segue.Mixing.Encoding
import Segue.Proofs.Graph.Evaluation

/-!
What is heard of a mix, as an expression over the engine inputs. It is put together from the edits of
the tracks and from the transitions, without labels, copies or stages.
-/

namespace Segue

/-- Audio as made from the engine inputs. -/
inductive Signal (α : Type) where
  | source (index : Nat)
  /-- What a chain of effects makes of some signals. -/
  | filtered (effects : List (Effect α)) (inputs : List (Signal α))

namespace Signal

variable {α : Type}

def through (signal : Signal α) (effects : List (Effect α)) : Signal α := filtered effects [signal]

/-- Signals one after the other. A single one is not joined to anything. -/
def joined : List (Signal α) → Signal α
  | [only] => only
  | signals => filtered [.append signals.length] signals

/-- A signal and the one that follows it, with a crossfade where the transition has a length. -/
def transition [Scalar α] (before : Signal α) (transition : Transition α) (after : Signal α) : Signal α :=
  if 0 < transition.duration then
    filtered [.crossfade transition.duration transition.curve] [before, after]
  else joined [before, after]

/-- A stage makes its effects of its inputs. A split gives its input again at each of its outputs. -/
def reading : Reading (Effect α) (Signal α) where
  source := source
  result effects inputs :=
    match effects, inputs with
    | [.split _], [input] => input
    | effects, inputs => filtered effects inputs

end Signal

namespace Track

variable {α : Type} [Scalar α]

/-- The kept parts of a track one after the other, or a silence when none is kept. -/
def cutSignal (track : Track α) (index : Nat) : Signal α :=
  match track.kept with
  | [] => .filtered [.silence, .limit Chain.placeholderLength] []
  | [only] => (Signal.source index).through (Chain.singleEffects track only)
  | intervals => .joined (intervals.map fun interval =>
      (Signal.source index).through (Chain.intervalEffects interval))

/-- A signal at the tempo of a track: stretched as a whole, or in the pieces of a ramp one after the
other. -/
def tempoSignal (track : Track α) (signal : Signal α) : Signal α :=
  match track.tempoChange?, track.tempoRegion with
  | none, _ => signal
  | some rate, none => signal.through (Chain.stretches rate)
  | some rate, some region =>
    let pieces := Tempo.rampPieces rate region.rampStart region.stop (Chain.cutLength track.kept)
    .joined (pieces.map fun piece => signal.through (Chain.rampEffects piece))

def volumeSignal [Decibels α] (track : Track α) (signal : Signal α) : Signal α :=
  match Chain.volumeEffect? track with
  | none => signal
  | some effect => signal.through [effect]

/-- What is heard of a track whose source is the engine input of an index. -/
def signal [Decibels α] (track : Track α) (options : Chain.Options α) (index : Nat) : Signal α :=
  (track.volumeSignal (track.tempoSignal (track.cutSignal index))).through
    [Chain.normalizationEffect options track]

end Track

/-- Signals from left to right, each joined to all before it by a transition. -/
def Signal.mixed {α : Type} [Scalar α] (first : Signal α) (rest : List (Signal α × Transition α)) : Signal α :=
  rest.foldl (fun mixed (next, transition) => mixed.transition transition next) first

/-- As `mixed`, of any signals; there is nothing to be heard of none. -/
def Signal.mixed? {α : Type} [Scalar α] (signals : List (Signal α)) (transitions : List (Transition α)) :
    Option (Signal α) :=
  match signals with
  | [] => none
  | first :: rest => some (first.mixed (rest.zip transitions))

def Project.signal? {α : Type} [Scalar α] [Decibels α] (project : Project α) (normalizes : Bool)
    (transitions : List (Transition α)) : Option (Signal α) :=
  let options : Chain.Options α := { normalizes, targets := .standard }
  Signal.mixed? (project.tracks.mapIdx fun index track => track.signal options index) transitions

end Segue
