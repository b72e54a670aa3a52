/-!
The end of what the engine has said, kept for error reports. Its size is bounded in bytes of UTF-8,
and it never starts inside a character.
-/

namespace Segue

/-- The last characters of a text, as many as fit. -/
structure DiagnosticTail where
  /-- The largest count of bytes. -/
  capacity : Nat := 4096
  chars : List Char := []
  deriving Repr, DecidableEq

namespace DiagnosticTail

def byteCount (chars : List Char) : Nat := chars.foldl (fun count c => count + c.utf8Size) 0

/-- Drops characters from the front until that many bytes are gone. -/
def dropBytes : Nat → List Char → List Char
  | 0, chars => chars
  | _ + 1, [] => []
  | excess + 1, c :: rest => dropBytes (excess + 1 - c.utf8Size) rest
termination_by _ chars => chars.length

/-- Adds text at the end and drops what no longer fits at the front. -/
def push (tail : DiagnosticTail) (chunk : List Char) : DiagnosticTail :=
  let chars := tail.chars ++ chunk
  { tail with chars := dropBytes (byteCount chars - tail.capacity) chars }

def text (tail : DiagnosticTail) : String := String.ofList tail.chars

end DiagnosticTail

end Segue
