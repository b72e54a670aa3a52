import Segue.Numeral.Reading

/-!
Filter graphs. A stage takes labelled inputs through a chain of filters to labelled outputs; a graph
is a list of stages. What a filter is does not matter for the labels, so stages are generic in it.
-/

namespace Segue

/-- A link between stages, or an input of the engine. -/
structure Pad where
  label : String
  deriving Repr, DecidableEq

namespace Pad

/-- The audio of an engine input. -/
def input (index : Nat) : Pad := ⟨toString index ++ ":a"⟩

/-- The index of the engine input that a pad names, in 64 bits. -/
def inputIndex? (pad : Pad) : Option Nat :=
  match pad.label.toList.reverse with
  | 'a' :: ':' :: index => Numeral.natBelow? (Nat.pow 2 64) (String.ofList index.reverse)
  | _ => none

def isInput (pad : Pad) : Bool := pad.inputIndex?.isSome

def text (pad : Pad) : String := "[" ++ pad.label ++ "]"

end Pad

/-- An option of a filter, with a key or by position. -/
structure FilterOption where
  key : Option String
  value : String
  deriving Repr, DecidableEq

/-- A filter as the engine is told of it. -/
structure Filter where
  name : String
  options : List FilterOption := []
  deriving Repr, DecidableEq

namespace Filter

def keyed (key value : String) : FilterOption := { key := some key, value }

def positional (value : String) : FilterOption := { key := none, value }

/-- The value of the first option with a key. -/
def get? (filter : Filter) (key : String) : Option String :=
  (filter.options.find? fun option => option.key == some key).map (·.value)

/-- The value of an option by its place among those without a key. -/
def positional? (filter : Filter) (index : Nat) : Option String :=
  (filter.options.filter fun option => option.key.isNone)[index]?.map (·.value)

def optionText (option : FilterOption) : String :=
  match option.key with
  | some key => key ++ "=" ++ option.value
  | none => option.value

/-- The name, then the options: an equals sign before the first and colons between them. -/
def text (filter : Filter) : String :=
  match filter.options with
  | [] => filter.name
  | options => filter.name ++ "=" ++ ":".intercalate (options.map optionText)

end Filter

/-- A chain of filters from inputs to outputs. -/
structure Stage (φ : Type) where
  inputs : List Pad
  filters : List φ
  outputs : List Pad
  deriving Repr, DecidableEq

namespace Stage

/-- A stage from one pad to another. -/
def between {φ : Type} (input : Pad) (filters : List φ) (output : Pad) : Stage φ :=
  { inputs := [input], filters, outputs := [output] }

/-- The stage with each filter replaced. -/
def map {φ ψ : Type} (f : φ → ψ) (stage : Stage φ) : Stage ψ :=
  { stage with filters := stage.filters.map f }

/-- The name of the first filter, which tells what the stage does. -/
def operation (stage : Stage Filter) : String := (stage.filters.head?.map (·.name)).getD ""

def text (stage : Stage Filter) : String :=
  String.join (stage.inputs.map Pad.text) ++ ",".intercalate (stage.filters.map Filter.text)
    ++ String.join (stage.outputs.map Pad.text)

end Stage

/-- Stages in order. -/
abbrev Graph (φ : Type) := List (Stage φ)

/-- The stages with semicolons between them. -/
def Graph.text (graph : Graph Filter) : String := ";".intercalate (graph.map Stage.text)

end Segue
