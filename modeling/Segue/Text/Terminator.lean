/-!
Text that is handed to the system ends at its first NUL character, so a text with one in it cannot be
handed over.
-/

namespace Segue.Text

/-- Whether a text has a NUL character in it. -/
def hasNul (text : String) : Bool := text.toList.contains '\x00'

end Segue.Text
