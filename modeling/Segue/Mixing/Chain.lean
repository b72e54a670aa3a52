import Segue.Decibels
import Segue.Effect
import Segue.Interval
import Segue.Tempo

/-!
The processing chain of one track: its kept parts are cut out and joined, then come tempo, volume and
normalization. Only the first and the last step are always there; the last one gives the chain its
single output.
-/

namespace Segue

/-- The stages of one track, from an engine input to one output. -/
structure Chain (φ : Type) where
  /-- The engine input that the track's source is. -/
  index : Nat
  stages : Graph φ
  output : Pad
  deriving Repr

namespace Graph

variable {φ : Type}

/-- Renames an output of the first stage that has it. -/
def relabelFirst (old new : Pad) : Graph φ → Graph φ
  | [] => []
  | stage :: rest =>
    if stage.outputs.contains old then { stage with outputs := stage.outputs.replace old new } :: rest
    else stage :: relabelFirst old new rest

/-- Renames an output of the last stage that has it. -/
def relabelLast (old new : Pad) (graph : Graph φ) : Graph φ :=
  (relabelFirst old new graph.reverse).reverse

end Graph

/-- The chain with its output renamed. -/
def Chain.relabel {φ : Type} (chain : Chain φ) (label : Pad) : Chain φ :=
  { chain with stages := Graph.relabelLast chain.output label chain.stages, output := label }

namespace Chain

/-- What all chains of a mix have in common. -/
structure Options (α : Type) where
  normalizes : Bool
  targets : LoudnessTargets α

/-- A link inside the chain of a track. -/
def link (index : Nat) (part : String) : Pad := ⟨"t" ++ toString index ++ "_" ++ part⟩

/-- The output of the chain of a track. -/
def outputPad (index : Nat) : Pad := ⟨"a" ++ toString index⟩

/-- What a track is cut into pieces for. -/
inductive Purpose where
  /-- Taking out its kept parts. -/
  | cut
  /-- Playing its parts at different rates. -/
  | ramp
  deriving Repr, DecidableEq

def Purpose.tag : Purpose → String
  | .cut => ""
  | .ramp => "r"

/-- The copy of the input that a piece is made of. -/
def branch (index : Nat) (purpose : Purpose) (piece : Nat) : Pad :=
  link index (purpose.tag ++ "src" ++ toString piece)

/-- A piece before it is joined to the others. -/
def segment (index : Nat) (purpose : Purpose) (piece : Nat) : Pad :=
  link index (purpose.tag ++ "seg" ++ toString piece)

/-- The link behind a step of the chain. -/
def cutPad (index : Nat) : Pad := link index "cut"
def tempoPad (index : Nat) : Pad := link index "tempo"
def volumePad (index : Nat) : Pad := link index "vol"

variable {α : Type}

/-- The stages that make each piece from its branch. -/
def pieceStages (index : Nat) (purpose : Purpose) (pieces : List (List (Effect α))) :
    Graph (Effect α) :=
  pieces.mapIdx fun piece effects =>
    Stage.between (branch index purpose piece) effects (segment index purpose piece)

/-- Runs each piece on its own copy of the input and joins them in order. A single piece needs
neither copies nor a join. -/
def splitJoin (index : Nat) (purpose : Purpose) (pieces : List (List (Effect α))) (input output : Pad) :
    Graph (Effect α) :=
  match pieces with
  | [only] => [Stage.between input only output]
  | pieces =>
    let count := pieces.length
    let split : Stage (Effect α) :=
      { inputs := [input], filters := [.split count]
        outputs := (List.range count).map (branch index purpose) }
    let join : Stage (Effect α) :=
      { inputs := (List.range count).map (segment index purpose), filters := [.append count]
        outputs := [output] }
    split :: pieceStages index purpose pieces ++ [join]

variable [Scalar α]

/-- The length of the silence that stands in for a track with nothing left to play. -/
def placeholderLength : α := 0.001

/-- The part of a source that an interval is. -/
def intervalEffects (interval : Interval α) : List (Effect α) :=
  [.part interval.start (some interval.stop), .restartClock]

/-- The whole rest of a source, when the track has no end of its own and is kept up to its end. -/
def singleEffects (track : Track α) (interval : Interval α) : List (Effect α) :=
  if track.trimEnd.isNone ∧ Scalar.magnitude (interval.stop - track.duration) < tolerance then
    [.part interval.start none, .restartClock]
  else intervalEffects interval

/-- Takes the kept parts of a track out of its source. -/
def cutStages (index : Nat) (track : Track α) (kept : List (Interval α)) : Graph (Effect α) :=
  match kept with
  | [] =>
    [{ inputs := [], filters := [.silence, .limit placeholderLength], outputs := [cutPad index] }]
  | [only] => [Stage.between (Pad.input index) (singleEffects track only) (cutPad index)]
  | many => splitJoin index .cut (many.map intervalEffects) (Pad.input index) (cutPad index)

/-- The stretches that together play at a rate. -/
def stretches (rate : α) : List (Effect α) := (Tempo.factors rate).map .stretch

/-- The effects of one piece of a ramp; nearly normal speed is left as it is. -/
def rampEffects (piece : Tempo.Piece α) : List (Effect α) :=
  [.part piece.start piece.stop, .restartClock]
    ++ if tolerance < Scalar.magnitude (piece.rate - 1) then stretches piece.rate else []

/-- The length of what the cut leaves, its stand-in included. -/
def cutLength (kept : List (Interval α)) : α :=
  if kept.isEmpty then placeholderLength else Interval.totalLength kept

/-- Changes the tempo, evenly or along a ramp. Gives the stages and the link behind them. -/
def tempoStages (index : Nat) (track : Track α) (kept : List (Interval α)) (input : Pad) :
    Graph (Effect α) × Pad :=
  match track.tempoChange?, track.tempoRegion with
  | none, _ => ([], input)
  | some rate, none => ([Stage.between input (stretches rate) (tempoPad index)], tempoPad index)
  | some rate, some region =>
    let pieces := Tempo.rampPieces rate region.rampStart region.stop (cutLength kept)
    (splitJoin index .ramp (pieces.map rampEffects) input (tempoPad index), tempoPad index)

/-- The volume of a track: its automation times its gain when it has two breakpoints or more, else
its gain alone. -/
def volumeEffect? [Decibels α] (track : Track α) : Option (Effect α) :=
  let factor := track.gain.map Decibels.factor
  if 2 ≤ track.envelope.length then
    some (.automate (Envelope.gain (Envelope.scaled (factor.getD 1) track.envelope)))
  else factor.map .amplify

/-- Changes the volume. Gives the stages and the link behind them. -/
def volumeStages [Decibels α] (index : Nat) (track : Track α) (input : Pad) :
    Graph (Effect α) × Pad :=
  match volumeEffect? track with
  | none => ([], input)
  | some effect => ([Stage.between input [effect] (volumePad index)], volumePad index)

/-- Normalization, where it is asked for and the track has been measured. -/
def normalizationEffect (options : Options α) (track : Track α) : Effect α :=
  match options.normalizes, track.loudness with
  | true, some measured => .normalize options.targets measured
  | _, _ => .pass

/-- The chain of the track whose source is the engine input of an index. -/
def ofTrack [Decibels α] (options : Options α) (index : Nat) (track : Track α) : Chain (Effect α) :=
  let kept := track.kept
  let cut := cutStages index track kept
  let (tempo, afterTempo) := tempoStages index track kept (cutPad index)
  let (volume, afterVolume) := volumeStages index track afterTempo
  let last := Stage.between afterVolume [normalizationEffect options track] (outputPad index)
  { index, stages := cut ++ tempo ++ volume ++ [last], output := outputPad index }

end Chain

end Segue
