/-!
The last block in braces of a text. Blocks nest, and inside a block braces in quotes do not count.
What stands outside every block is skipped, quotes included.
-/

namespace Segue.Block

/-- What has been seen of a text up to some place. -/
structure Scan where
  /-- The count of blocks that are open. -/
  depth : Nat := 0
  inString : Bool := false
  /-- The character before this place was a backslash in a string that is not itself escaped. -/
  escaped : Bool := false
  /-- The characters of the outermost open block, last one first. -/
  current : List Char := []
  /-- The last outermost block that has been closed. -/
  last : Option (List Char) := none
  deriving Repr, DecidableEq

/-- Goes on by one character. -/
def Scan.step (scan : Scan) (c : Char) : Scan :=
  if scan.inString then
    let scan := { scan with current := c :: scan.current }
    if scan.escaped then { scan with escaped := false }
    else if c = '\\' then { scan with escaped := true }
    else if c = '"' then { scan with inString := false }
    else scan
  else if c = '\x7b' then
    { scan with depth := scan.depth + 1, current := if scan.depth = 0 then [c] else c :: scan.current }
  else if scan.depth = 0 then scan
  else if c = '\x7d' then
    let current := c :: scan.current
    if scan.depth = 1 then { scan with depth := 0, current := [], last := some current.reverse }
    else { scan with depth := scan.depth - 1, current }
  else { scan with inString := decide (c = '"'), current := c :: scan.current }

/-- The last outermost block of a text. -/
def last? (text : List Char) : Option (List Char) := (text.foldl Scan.step {}).last

end Segue.Block
