import Segue.Project.Record
import Segue.Settings.Store

/-!
Project files in a file tree.
-/

namespace Segue

/-- Why a project cannot be loaded or saved. -/
inductive ProjectError where
  | file (path : Path) (error : FileError)
  /-- The file is there, but it does not hold a project. -/
  | malformed (path : Path)
  deriving Repr, DecidableEq

def ProjectError.message : ProjectError → String
  | file path error => "I/O error at " ++ path.text ++ ": " ++ error.message
  | malformed path => "Parse error in " ++ path.text ++ ": not a mix project"

/-- The mix of a project file, from what reading the file gave. -/
def Mix.ofRead (path : Path) (text : Except FileError String) : Except ProjectError (Mix Float) :=
  match text with
  | .error error => .error (.file path error)
  | .ok text =>
    match Project.parse? text with
    | some project => .ok (Mix.ofFile path project)
    | none => .error (.malformed path)

namespace FileTree

def loadMix (files : FileTree) (path : Path) : Except ProjectError (Mix Float) :=
  Mix.ofRead path (files.read path)

/-- Writes a mix back to its project file. -/
def saveMix (files : FileTree) (mix : Mix Float) : FileTree × Except FileError Unit :=
  files.writeBelow mix.file mix.project.fileText

/-- The titles of the tracks whose sources are not there, in order. -/
def missingSources (files : FileTree) (mix : Mix Float) : List String :=
  (mix.project.tracks.filter fun track => !files.contains (mix.sourcePath track)).map Track.title

end FileTree

end Segue
