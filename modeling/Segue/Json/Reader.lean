import Segue.Json.Number

/-!
Reading the notation from text. The grammar is the strict one: no blank but space, tab and line
breaks, no control character inside a string, no leading zero, nothing behind the value.
-/

namespace Segue.Json

def isBlank (c : Char) : Bool := c == ' ' || c == '\t' || c == '\n' || c == '\r'

def skipBlanks (text : List Char) : List Char := text.dropWhile isBlank

def hexDigit? (c : Char) : Option Nat :=
  if c.isDigit then some (c.toNat - '0'.toNat)
  else if 'a' ≤ c ∧ c ≤ 'f' then some (c.toNat - 'a'.toNat + 10)
  else if 'A' ≤ c ∧ c ≤ 'F' then some (c.toNat - 'A'.toNat + 10)
  else none

/-- Four hexadecimal digits as one unit of sixteen bits. -/
def hexUnit? (a b c d : Char) : Option Nat := do
  let a ← hexDigit? a
  let b ← hexDigit? b
  let c ← hexDigit? c
  let d ← hexDigit? d
  return ((a * 16 + b) * 16 + c) * 16 + d

/-- The character that a letter behind a backslash stands for. -/
def shortEscape? : Char → Option Char
  | '"' => some '"'
  | '\\' => some '\\'
  | '/' => some '/'
  | 'b' => some '\x08'
  | 'f' => some '\x0c'
  | 'n' => some '\n'
  | 'r' => some '\r'
  | 't' => some '\t'
  | _ => none

/-- A piece of a string: a character, or an escaped unit of sixteen bits. -/
inductive Piece where
  | char (value : Char)
  | unit (value : Nat)

/-- The pieces of a string behind its opening quote, and the text behind its closing one. -/
def pieces : List Char → Option (List Piece × List Char)
  | '"' :: rest => some ([], rest)
  | '\\' :: 'u' :: a :: b :: c :: d :: rest =>
    match hexUnit? a b c d, pieces rest with
    | some value, some (tail, rest) => some (.unit value :: tail, rest)
    | _, _ => none
  | '\\' :: letter :: rest =>
    match shortEscape? letter, pieces rest with
    | some value, some (tail, rest) => some (.char value :: tail, rest)
    | _, _ => none
  | c :: rest =>
    if c.toNat < 0x20 then none
    else match pieces rest with
      | some (tail, rest) => some (.char c :: tail, rest)
      | none => none
  | [] => none

/-- The characters that pieces stand for. A high surrogate needs a low one right behind it, and a low
one needs the high one in front. -/
def charsOfPieces : List Piece → Option (List Char)
  | [] => some []
  | .char c :: rest => (charsOfPieces rest).map (c :: ·)
  | .unit high :: rest =>
    if 0xD800 ≤ high ∧ high < 0xDC00 then
      match rest with
      | .unit low :: rest =>
        if 0xDC00 ≤ low ∧ low < 0xE000 then
          (charsOfPieces rest).map (Char.ofNat (0x10000 + (high - 0xD800) * 0x400 + (low - 0xDC00)) :: ·)
        else none
      | _ => none
    else if 0xDC00 ≤ high ∧ high < 0xE000 then none
    else (charsOfPieces rest).map (Char.ofNat high :: ·)

/-- A string behind its opening quote; none inside when its escapes stand for no text. -/
def stringBody (text : List Char) : Option (Option String × List Char) :=
  (pieces text).map fun (found, rest) => ((charsOfPieces found).map String.ofList, rest)

/-- The digits of a whole number: a zero alone, or a run that starts with another digit. -/
def wholeDigits : List Char → Option (List Char × List Char)
  | '0' :: rest => if rest.head?.any Char.isDigit then none else some (['0'], rest)
  | text =>
    match text.takeWhile Char.isDigit with
    | [] => none
    | digits => some (digits, text.dropWhile Char.isDigit)

/-- The digits behind a point, when there is one. -/
def placeDigits : List Char → Option (Option (List Char) × List Char)
  | '.' :: rest =>
    match rest.takeWhile Char.isDigit with
    | [] => none
    | digits => some (some digits, rest.dropWhile Char.isDigit)
  | text => some (none, text)

/-- The exponent, when there is one. -/
def exponentPart : List Char → Option (Option Int × List Char)
  | [] => some (none, [])
  | mark :: rest =>
    if mark = 'e' ∨ mark = 'E' then
      let (negative, rest) := Numeral.splitSign rest
      match rest.takeWhile Char.isDigit with
      | [] => none
      | digits =>
        let size : Int := Numeral.digitsValue digits
        some (some (if negative then -size else size), rest.dropWhile Char.isDigit)
    else some (none, mark :: rest)

/-- A number, its sign already taken off. -/
def number (negative : Bool) (text : List Char) : Option (Json × List Char) := do
  let (whole, rest) ← wholeDigits text
  let (places, rest) ← placeDigits rest
  let (exponent, rest) ← exponentPart rest
  return (numberValue negative whole places exponent, rest)

/-- The text behind a word it starts with. -/
def afterWord? (word : List Char) (text : List Char) : Option (List Char) :=
  if word.isPrefixOf text then some (text.drop word.length) else none

/-- An object made of its members. Without a readable name for each there is no object. -/
def ofMembers (members : List (Option String × Json)) : Json :=
  match members.mapM fun (name, value) => name.map (·, value) with
  | some members => .object members
  | none => .unreadable

mutual

/-- A value at the start of the text. Each call uses up fuel; a text needs no more than its length. -/
def value : Nat → List Char → Option (Json × List Char)
  | 0, _ => none
  | fuel + 1, text =>
    match text with
    | 'n' :: _ => (afterWord? "null".toList text).map (Json.null, ·)
    | 't' :: _ => (afterWord? "true".toList text).map (Json.bool true, ·)
    | 'f' :: _ => (afterWord? "false".toList text).map (Json.bool false, ·)
    | '"' :: rest =>
      (stringBody rest).map fun (found, rest) => ((found.map Json.string).getD .unreadable, rest)
    | '[' :: rest =>
      match skipBlanks rest with
      | ']' :: rest => some (.array [], rest)
      | rest => (elements fuel rest).map fun (found, rest) => (.array found, rest)
    | '{' :: rest =>
      match skipBlanks rest with
      | '}' :: rest => some (.object [], rest)
      | rest => (members fuel rest).map fun (found, rest) => (ofMembers found, rest)
    | '-' :: rest => number true rest
    | text => number false text

/-- The elements of an array up to its closing bracket; at least one is left. -/
def elements : Nat → List Char → Option (List Json × List Char)
  | 0, _ => none
  | fuel + 1, text => do
    let (head, rest) ← value fuel text
    match skipBlanks rest with
    | ',' :: rest =>
      let (tail, rest) ← elements fuel (skipBlanks rest)
      return (head :: tail, rest)
    | ']' :: rest => return ([head], rest)
    | _ => none

/-- The members of an object up to its closing brace; at least one is left. -/
def members : Nat → List Char → Option (List (Option String × Json) × List Char)
  | 0, _ => none
  | fuel + 1, text => do
    let '"' :: rest := text | none
    let (name, rest) ← stringBody rest
    let ':' :: rest := skipBlanks rest | none
    let (head, rest) ← value fuel (skipBlanks rest)
    match skipBlanks rest with
    | ',' :: rest =>
      let (tail, rest) ← members fuel (skipBlanks rest)
      return ((name, head) :: tail, rest)
    | '}' :: rest => return ([(name, head)], rest)
    | _ => none

end

/-- The value that a text holds, when it holds one value and nothing else. -/
def parse? (text : String) : Option Json := do
  let chars := text.toList
  let (found, rest) ← value (chars.length + 1) (skipBlanks chars)
  match skipBlanks rest with
  | [] => return found
  | _ => none

end Segue.Json
