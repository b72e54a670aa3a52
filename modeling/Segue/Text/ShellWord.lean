/-!
Texts as single words of a shell command.
-/

namespace Segue.Text.ShellWord

/-- Whether a character means nothing but itself in a command. -/
def isPlain (c : Char) : Bool := c.isAlphanum || "-_./:=+".toList.contains c

/-- A single quote ends the quoted part, stands behind a backslash, and opens another quoted part. -/
def escape (c : Char) : List Char := if c = '\'' then "'\\''".toList else [c]

/-- The text as one word, in quotes unless it is not empty and all its characters are plain. -/
def quote (text : String) : String :=
  if text ≠ "" ∧ text.toList.all isPlain then text
  else String.ofList ('\'' :: text.toList.flatMap escape ++ ['\''])

/-- Words of a command, with blanks between them. -/
def line (words : List String) : String := " ".intercalate (words.map quote)

end Segue.Text.ShellWord
