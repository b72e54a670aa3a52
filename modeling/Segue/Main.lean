import Segue.CommandLine.Run
import Std.Time.Format

/-!
The program. Commands work on the files of the machine, and their configuration is found through the
environment. No other program is started from here: a render goes as far as the engine, which it is
not permitted to run.
-/

namespace Segue.CommandLine.Machine

/-- The reason behind a refused operation. -/
def reason : IO.Error → FileError
  | .alreadyExists .. => .alreadyExists
  | .inappropriateType _ 21 _ => .isDirectory
  | .inappropriateType .. => .notDirectory
  | .illegalOperation 21 _ => .isDirectory
  | .permissionDenied .. => .permissionDenied
  | .resourceExhausted _ 36 _ | .invalidArgument _ 36 _ => .nameTooLong
  | _ => .notFound

/-- Tries an operation on a path. -/
def attempt {α : Type} (path : Path) (action : String → IO α) : IO (Except FileError α) := do
  match path.check with
  | .error error => return .error error
  | .ok () =>
    match ← (action path.text).toBaseIO with
    | .ok value => return .ok value
    | .error error => return .error (reason error)

/-- Makes a directory and those above it that are missing. -/
def makeDirectories (path : Path) : IO (Except FileError Unit) :=
  if path.text = "" then return .ok () else attempt path fun text => IO.FS.createDirAll text

/-- The type of what a path names. -/
def typeOf? (path : Path) : IO (Option IO.FS.FileType) := do
  match ← attempt path fun text => IO.FS.realPath text >>= fun place => place.metadata with
  | .ok data => return some data.type
  | .error _ => return none

/-- The engine of a name or path, and where it is looked for. -/
def engine (binary : String) : IO Engine := do
  let searched := ((← IO.getEnv "PATH").getD "").toList.splitOn ':'
  return { binary, searchPath := searched.map fun directory => ⟨String.ofList directory⟩ }

def hasEngine (binary : String) : IO Bool := do
  (← engine binary).candidates.anyM fun path => return (← typeOf? path) == some .file

/-- The date and time in the form of the configuration file. -/
def stamp : IO String := do
  let moment := Std.Time.WallTime.ofTimestamp (← Std.Time.Timestamp.now) Std.Time.TimeZone.Offset.zero
  let date := Std.Time.PlainDateTime.ofWallTime moment
  return date.date.format "uuuu-MM-dd" ++ "T" ++ date.time.format "HH:mm:ss.SSSSSSSSS" ++ "+00:00"

/-- Answers a request of a job. -/
def answer (binary : String) (observe : Event → IO Unit) : (request : Request) → IO request.Answer
  | .isCancelled => return false
  | .announce event => observe event
  | .sourceExists path => return (← typeOf? path).isSome
  | .engineAvailable => hasEngine binary
  | .makeOutputDirectory path | .makeSettingsDirectory path => makeDirectories path
  | .startEngine _ => return .error (.program .permissionDenied)
  | .hearEngine => return .silence
  | .awaitEngine => return none
  | .stopEngine | .releaseSlot => return ()
  | .removeOutput path => discard (attempt path fun text => IO.FS.removeFile text)
  | .writeSheet path text | .writeSettings path text =>
    discard (attempt path fun place => IO.FS.writeFile place text)
  | .readSettings path => return (← attempt path fun text => IO.FS.readFile text).toOption
  | .timeStamp => stamp

/-- Answers the requests of a job until it has ended. -/
partial def drive (binary : String) (observe : Event → IO Unit) (job : Job) : IO Outcome := do
  match job.next with
  | .ended outcome => return outcome
  | .ask request resume => drive binary observe (resume (← answer binary observe request))

instance : Host IO where
  isDirectory path := return (← typeOf? path) == some .dir
  contains path := return (← typeOf? path).isSome
  read path := attempt path fun text => IO.FS.readFile text
  write path text := attempt path fun place => IO.FS.writeFile place text
  openForAppending path := attempt path fun text => discard (IO.FS.Handle.mk text .append)
  hasEngine := hasEngine
  say text := do
    let output ← IO.getStdout
    output.putStr text
    output.flush
  warn text := do (← IO.getStderr).putStr text
  render binary settingsFile request observe :=
    drive binary observe { id := 0, request, settingsFile := some settingsFile }

end Segue.CommandLine.Machine

def main (arguments : List String) : IO UInt32 := do
  let configFile := Segue.Config.path (← IO.getEnv "XDG_CONFIG_HOME") (← IO.getEnv "HOME")
  let status ← (Segue.CommandLine.run configFile arguments : IO Nat)
  return status.toUInt32
