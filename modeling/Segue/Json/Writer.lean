import Segue.Json.Basic
import Segue.Numeral.Shortest

/-!
Writing the notation: indented over several lines for files, and without blanks for messages.
-/

namespace Segue.Json

/-- Numbers below `10 ^ -5` and from `10 ^ 16` up take an exponent, and a whole number keeps a zero
behind its point. -/
def numberLayout : Numeral.Layout :=
  { tie := .toEven, least := some (-5), bound := some 16, keepsPoint := true }

/-- A number that is not finite has no form of its own and is written as nothing. -/
def floatText (x : Float) : String := if x.isFinite then numberLayout.write x else "null"

def hexChar (n : Nat) : Char := Char.ofNat (if n < 10 then '0'.toNat + n else 'a'.toNat + (n - 10))

/-- A character inside a string. Quotes, backslashes and control characters are escaped. -/
def escapeChar (c : Char) : List Char :=
  match c with
  | '"' => ['\\', '"']
  | '\\' => ['\\', '\\']
  | '\x08' => ['\\', 'b']
  | '\x0c' => ['\\', 'f']
  | '\n' => ['\\', 'n']
  | '\r' => ['\\', 'r']
  | '\t' => ['\\', 't']
  | c =>
    if c.toNat < 0x20 then ['\\', 'u', '0', '0', hexChar (c.toNat / 16), hexChar (c.toNat % 16)]
    else [c]

def quote (text : String) : String :=
  String.ofList ('"' :: text.toList.flatMap escapeChar ++ ['"'])

/-- What stands between the parts of an array or object at a given depth of nesting. -/
structure Spacing where
  /-- A line break and its indentation, or nothing. -/
  newline : Nat → String
  afterColon : String

def Spacing.indented : Spacing :=
  { newline := fun depth => String.ofList ('\n' :: List.replicate (2 * depth) ' '), afterColon := " " }

def Spacing.dense : Spacing := { newline := fun _ => "", afterColon := "" }

/-- Parts between an opening and a closing mark; nothing at all between them when there are none. -/
def Spacing.enclose (spacing : Spacing) (depth : Nat) (opening closing : String) :
    List String → String
  | [] => opening ++ closing
  | parts =>
    let inner := spacing.newline (depth + 1)
    opening ++ inner ++ ("," ++ inner).intercalate parts ++ spacing.newline depth ++ closing

mutual

def Spacing.write (spacing : Spacing) (depth : Nat) : Json → String
  | .null | .unreadable => "null"
  | .bool value => if value then "true" else "false"
  | .int value => toString value
  | .float value => floatText value
  | .string value => quote value
  | .array found => spacing.enclose depth "[" "]" (spacing.writeElements (depth + 1) found)
  | .object found =>
    spacing.enclose depth "\x7b" "\x7d" (spacing.writeMembers (depth + 1) found)

def Spacing.writeElements (spacing : Spacing) (depth : Nat) : List Json → List String
  | [] => []
  | head :: tail => spacing.write depth head :: spacing.writeElements depth tail

def Spacing.writeMembers (spacing : Spacing) (depth : Nat) : List (String × Json) → List String
  | [] => []
  | (name, value) :: tail =>
    (quote name ++ ":" ++ spacing.afterColon ++ spacing.write depth value)
      :: spacing.writeMembers depth tail

end

/-- The text over several lines, two blanks deeper for each level. -/
def pretty (json : Json) : String := Spacing.indented.write 0 json

/-- The text on one line without blanks. -/
def compact (json : Json) : String := Spacing.dense.write 0 json

end Segue.Json
