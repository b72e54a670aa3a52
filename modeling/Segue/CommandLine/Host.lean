import Segue.Job.Schedule
import Segue.Settings.Store

/-!
What commands need of the place where they run, and such a place as a value: a file tree, an engine
that follows scripts, and what has been printed.
-/

namespace Segue.CommandLine

/-- What a command can do. -/
class Host (m : Type → Type) where
  isDirectory : Path → m Bool
  contains : Path → m Bool
  read : Path → m (Except FileError String)
  write : Path → String → m (Except FileError Unit)
  /-- Makes sure that a file is there to be added to. -/
  openForAppending : Path → m (Except FileError Unit)
  /-- Whether the engine of a name or path is there. -/
  hasEngine : String → m Bool
  say : String → m Unit
  warn : String → m Unit
  /-- Runs a render job with an engine to its end. The settings of a completed export are kept in a
  file, and every event is passed on. -/
  render : String → Path → ExportRequest → (Event → m Unit) → m Outcome

export Host (isDirectory contains read write openForAppending hasEngine say warn render)

/-- A place where commands run. -/
structure Session where
  files : FileTree := {}
  /-- The directories where the engine is looked for. -/
  searchPath : List Path := []
  /-- What the runs of the engine will do. -/
  scripts : List EngineScript := []
  /-- The arguments of the engine's runs so far. -/
  invocations : List (List String) := []
  /-- The date and time that is written down. -/
  date : String := ""
  said : String := ""
  warned : String := ""

namespace Session

/-- Tries to change the files. -/
def change (result : Except FileError FileTree) : StateM Session (Except FileError Unit) :=
  match result with
  | .ok files => do
    modify fun session => { session with files }
    return .ok ()
  | .error error => return .error error

/-- The service that renders here. -/
def service (session : Session) (binary : String) (settingsFile : Path) : Service :=
  { engine := { binary, searchPath := session.searchPath }
    settingsFile := some settingsFile
    files := session.files
    scripts := session.scripts
    date := session.date }

/-- Runs a job to its end, and gives its events and outcome. A job whose engine never ends is taken as
cancelled. -/
def runJob (session : Session) (binary : String) (settingsFile : Path) (request : ExportRequest) :
    List Event × Outcome × Session :=
  match (session.service binary settingsFile).start request with
  | .error failure => ([], .failed failure.message, session)
  | .ok (id, service) =>
    let service := service.finish id
    let session := { session with
      files := service.files
      scripts := service.scripts
      invocations := session.invocations ++ service.invocations.map Prod.snd }
    (service.events, (service.outcome? id).getD .cancelled, session)

end Session

instance : Host (StateM Session) where
  isDirectory path := return (← get).files.isDirectory path
  contains path := return (← get).files.contains path
  read path := return (← get).files.read path
  write path text := do Session.change ((← get).files.write path text)
  openForAppending path := do Session.change ((← get).files.openForAppending path)
  hasEngine binary := do
    let session ← get
    return { binary, searchPath := session.searchPath : Engine }.isAvailable session.files
  say text := modify fun session => { session with said := session.said ++ text }
  warn text := modify fun session => { session with warned := session.warned ++ text }
  render binary settingsFile request observe := do
    let (events, outcome, session) := (← get).runJob binary settingsFile request
    set session
    events.forM observe
    return outcome

end Segue.CommandLine
