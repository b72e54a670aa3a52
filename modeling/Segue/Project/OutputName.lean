import Segue.Project.Basic
import Segue.Settings.Basic
import Segue.Text.Alphanumeric

/-!
The file that a mix is rendered to when the user names none.
-/

namespace Segue

/-- A character that a file name keeps. -/
def keepsInName (c : Char) : Bool := Text.isAlphanumeric c || c == '-' || c == '_' || c == '.'

/-- The name of a mix as the stem of a file name: blanks around it are dropped, and what a file name
does not keep becomes an underscore. -/
def outputStem (name : String) : String :=
  let stem := (Text.trim name).map fun c => if keepsInName c then c else '_'
  if stem = "" then "mix" else stem

/-- A file beside the project file, named for the mix and the format. -/
def Mix.defaultOutput {α : Type} (mix : Mix α) (format : AudioFormat) : Path :=
  mix.root.join ⟨outputStem mix.project.name ++ "." ++ format.extension⟩

end Segue
