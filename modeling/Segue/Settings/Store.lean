import Segue.Failure
import Segue.Files
import Segue.Settings.Record

/-!
The configuration file in a file tree.
-/

namespace Segue.FileTree

/-- The stored configuration, or the default one when there is none that can be decoded. -/
def loadConfig (files : FileTree) (path : Path) : Config :=
  Config.ofStored (files.read path).toOption

/-- Writes a file after making its directory. A directory that has been made stays when the file is
refused. -/
def writeBelow (files : FileTree) (path : Path) (text : String) : FileTree × Except FileError Unit :=
  let (files, made) := match path.parent? with
    | some directory => files.makeDirectories directory
    | none => (files, .ok ())
  match made with
  | .error error => (files, .error error)
  | .ok () =>
    match files.write path text with
    | .ok files => (files, .ok ())
    | .error error => (files, .error error)

def saveConfig (files : FileTree) (path : Path) (config : Config) : FileTree × Except FileError Unit :=
  files.writeBelow path config.fileText

/-- Stores the settings of an export that was completed at some time beside what the configuration
file keeps apart from them. -/
def rememberExport (files : FileTree) (path : Path) (settings : ExportSettings) (time : String) :
    FileTree × Except Failure Unit :=
  let (files, saved) := files.saveConfig path ((files.loadConfig path).remember settings time)
  (files, saved.mapError fun error => .persist (path.text ++ ": " ++ error.message))

end Segue.FileTree
