/-!
Blank characters, and the text that remains without them. Every character that Unicode calls white
space is blank.
-/

namespace Segue.Text

/-- Whether a character is white space in Unicode. -/
def isBlank (c : Char) : Bool :=
  let point := c.toNat
  (9 ≤ point && point ≤ 13) || point == 0x20 || point == 0x85 || point == 0xA0 || point == 0x1680
    || (0x2000 ≤ point && point ≤ 0x200A) || point == 0x2028 || point == 0x2029 || point == 0x202F
    || point == 0x205F || point == 0x3000

/-- The characters from the first to the last that is not blank. -/
def trimChars (text : List Char) : List Char :=
  ((text.dropWhile isBlank).reverse.dropWhile isBlank).reverse

/-- The text from its first to its last character that is not blank. -/
def trim (text : String) : String := String.ofList (trimChars text.toList)

/-- The first run of characters that are not blank. -/
def firstWord (text : List Char) : List Char :=
  (text.dropWhile isBlank).takeWhile fun c => !isBlank c

end Segue.Text
