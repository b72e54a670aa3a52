/-!
Decoding bytes that should be UTF-8. A byte sequence that cannot be completed gives one replacement
character for its longest beginning that could have been, and decoding goes on behind it.
-/

namespace Segue.Text

/-- What may follow a lead byte: the bounds of each byte still to come. -/
def continuationBounds (lead : UInt8) : Option (List (UInt8 × UInt8)) :=
  let any := (0x80, 0xBF)
  if lead < 0xC2 then none
  else if lead < 0xE0 then some [any]
  else if lead = 0xE0 then some [(0xA0, 0xBF), any]
  else if lead = 0xED then some [(0x80, 0x9F), any]
  else if lead < 0xF0 then some [any, any]
  else if lead = 0xF0 then some [(0x90, 0xBF), any, any]
  else if lead < 0xF4 then some [any, any, any]
  else if lead = 0xF4 then some [(0x80, 0x8F), any, any]
  else none

/-- The payload of a lead byte that has the given count of followers. -/
def leadPayload (lead : UInt8) (followers : Nat) : Nat := lead.toNat % Nat.pow 2 (6 - followers)

/-- Takes the followers a character asks for. Gives the character, or none at the first byte out of
bounds, and the bytes behind what was taken. -/
def takeFollowers (value : Nat) : List (UInt8 × UInt8) → List UInt8 → Option Char × List UInt8
  | [], rest => (some (Char.ofNat value), rest)
  | _ :: _, [] => (none, [])
  | (low, high) :: bounds, byte :: rest =>
    if low ≤ byte ∧ byte ≤ high then takeFollowers (64 * value + byte.toNat % 64) bounds rest
    else (none, byte :: rest)

theorem takeFollowers_length (value : Nat) (bounds : List (UInt8 × UInt8)) (bytes : List UInt8) :
    (takeFollowers value bounds bytes).2.length ≤ bytes.length := by
  induction bytes generalizing value bounds with
  | nil => cases bounds <;> simp [takeFollowers]
  | cons byte rest ih =>
    cases bounds with
    | nil => simp [takeFollowers]
    | cons bound bounds =>
      simp only [takeFollowers]
      split
      · exact Nat.le_succ_of_le (ih _ _)
      · simp

/-- The character that stands for bytes that are no character. -/
def replacement : Char := Char.ofNat 0xFFFD

/-- Decodes bytes, with a replacement character for each part that is not UTF-8. -/
def decodeLossy : List UInt8 → List Char
  | [] => []
  | lead :: rest =>
    if lead < 0x80 then Char.ofNat lead.toNat :: decodeLossy rest
    else match continuationBounds lead with
      | none => replacement :: decodeLossy rest
      | some bounds =>
        let taken := takeFollowers (leadPayload lead bounds.length) bounds rest
        taken.1.getD replacement :: decodeLossy taken.2
termination_by bytes => bytes.length
decreasing_by
  · simp
  · simp
  · exact Nat.lt_succ_of_le (takeFollowers_length _ _ _)

end Segue.Text
