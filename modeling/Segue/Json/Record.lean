import Segue.Json.Basic

/-!
Decoding values into records. A record is an object, where unknown names are passed over and a known
name may come only once, or an array of its fields in order, where fields may be missing at the end.
-/

namespace Segue.Json

/-- A decoder; it says nothing about why a value is refused. -/
abbrev Decoder (α : Type) := Json → Option α

def asString : Decoder String
  | .string value => some value
  | _ => none

def asBool : Decoder Bool
  | .bool value => some value
  | _ => none

/-- Any number; a whole one becomes the nearest double. -/
def asFloat : Decoder Float
  | .int value => some (Float.ofInt value)
  | .float value => some value
  | _ => none

/-- A whole number from zero up and below a bound. -/
def asNatBelow (bound : Nat) : Decoder Nat
  | .int value => if 0 ≤ value ∧ value < bound then some value.toNat else none
  | _ => none

def asOption {α : Type} (decode : Decoder α) : Decoder (Option α)
  | .null => some none
  | json => (decode json).map some

def asList {α : Type} (decode : Decoder α) : Decoder (List α)
  | .array elements => elements.mapM decode
  | _ => none

/-- The name of an alternative without data: a string, or an object with that one name and null. -/
def asName : Decoder String
  | .string name => some name
  | .object [(name, .null)] => some name
  | _ => none

/-- The fields of a record that were given. -/
abbrev Fields := List (String × Json)

/-- Whether no name occurs twice. -/
def Fields.distinct : Fields → Bool
  | [] => true
  | (name, _) :: rest => rest.all (·.1 != name) && Fields.distinct rest

/-- The fields that a value gives to a record with these field names. -/
def fields? (names : List String) : Decoder Fields
  | .object members =>
    let known := members.filter fun (name, _) => names.contains name
    if Fields.distinct known then some known else none
  | .array elements =>
    if elements.length ≤ names.length then some (names.zip elements) else none
  | _ => none

/-- A field that has to be given. -/
def Fields.required {α : Type} (fields : Fields) (name : String) (decode : Decoder α) : Option α :=
  (fields.lookup name).bind decode

/-- A field with a value of its own when it is not given. -/
def Fields.withDefault {α : Type} (fields : Fields) (name : String) (default : α)
    (decode : Decoder α) : Option α :=
  match fields.lookup name with
  | some json => decode json
  | none => some default

/-- A field that may be null or not given. -/
def Fields.optional {α : Type} (fields : Fields) (name : String) (decode : Decoder α) :
    Option (Option α) :=
  fields.withDefault name none (asOption decode)

/-- A list that is empty when it is not given. -/
def Fields.listOf {α : Type} (fields : Fields) (name : String) (decode : Decoder α) :
    Option (List α) :=
  fields.withDefault name [] (asList decode)

def ofOption {α : Type} (encode : α → Json) : Option α → Json
  | some value => encode value
  | none => .null

end Segue.Json
