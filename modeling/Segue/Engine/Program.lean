import Segue.Files
import Segue.Text.Terminator

/-!
The encoding engine as a program: where it is looked for, whether it can be started, and how its runs
end.
-/

namespace Segue

/-- How a run of the engine has ended. -/
inductive ExitStatus where
  | exited (code : Nat)
  | signalled (number : Nat)
  deriving Repr, DecidableEq

namespace ExitStatus

def isSuccess (status : ExitStatus) : Bool := status == .exited 0

/-- The signals that have names. -/
def signalNames : List (Nat × String) :=
  [(1, "SIGHUP"), (2, "SIGINT"), (3, "SIGQUIT"), (4, "SIGILL"), (5, "SIGTRAP"), (6, "SIGABRT"),
    (7, "SIGBUS"), (8, "SIGFPE"), (9, "SIGKILL"), (10, "SIGUSR1"), (11, "SIGSEGV"), (12, "SIGUSR2"),
    (13, "SIGPIPE"), (14, "SIGALRM"), (15, "SIGTERM"), (16, "SIGSTKFLT"), (17, "SIGCHLD"),
    (18, "SIGCONT"), (19, "SIGSTOP"), (20, "SIGTSTP"), (21, "SIGTTIN"), (22, "SIGTTOU"),
    (23, "SIGURG"), (24, "SIGXCPU"), (25, "SIGXFSZ"), (26, "SIGVTALRM"), (27, "SIGPROF"),
    (28, "SIGWINCH"), (29, "SIGIO"), (30, "SIGPWR"), (31, "SIGSYS")]

def text : ExitStatus → String
  | exited code => "exit status: " ++ toString code
  | signalled number =>
    "signal: " ++ toString number
      ++ match signalNames.lookup number with
        | some name => " (" ++ name ++ ")"
        | none => ""

end ExitStatus

/-- Why the engine is not started. -/
inductive StartError where
  /-- An argument holds a character that would end it. -/
  | nulInArgument
  | argumentTooLong
  /-- There is no program to start, or it cannot be run. -/
  | program (error : FileError)
  deriving Repr, DecidableEq

def StartError.message : StartError → String
  | nulInArgument => "nul byte found in provided data"
  | argumentTooLong => "Argument list too long (os error 7)"
  | program error => error.message

/-- The engine by name or path, and the directories where a name is looked for. -/
structure Engine where
  binary : String := "ffmpeg"
  searchPath : List Path := []
  deriving Repr, DecidableEq

namespace Engine

/-- The name of the engine in messages, whatever its program is called. -/
def name : String := "ffmpeg"

/-- The files that the engine may be, in the order they are tried in. A path is taken as it is. -/
def candidates (engine : Engine) : List Path :=
  if engine.binary.toList.contains '/' then [⟨engine.binary⟩]
  else engine.searchPath.map fun directory => directory.join ⟨engine.binary⟩

/-- Whether the engine is there. -/
def isAvailable (engine : Engine) (files : FileTree) : Bool := engine.candidates.any files.isFile

/-- Whether a file can be run. -/
def canRun (files : FileTree) (path : Path) : Except FileError Unit := do
  match files.entry? (← files.find path) with
  | some (.file _ true) => .ok ()
  | _ => .error .permissionDenied

/-- Looks for a program to start. A candidate that cannot be run does not end the search, but is what is
reported when there is no other. -/
def findProgram (engine : Engine) (files : FileTree) : Except FileError Unit :=
  let tried := engine.candidates.map (canRun files)
  if tried.any (·.toBool) then .ok ()
  else if tried.any fun result => result matches .error .permissionDenied then .error .permissionDenied
  else if engine.binary.toList.contains '/' then tried.head?.getD (.error .notFound)
  else .error .notFound

/-- The most bytes of an argument. -/
def argumentLimit : Nat := 131071

/-- Whether the engine can be started with arguments. Their form is looked at before the program is
looked for, and their length after it. -/
def startable (engine : Engine) (arguments : List String) (files : FileTree) :
    Except StartError Unit := do
  if arguments.any Text.hasNul then .error .nulInArgument
  match engine.findProgram files with
  | .error error => .error (.program error)
  | .ok () => if arguments.any (argumentLimit < ·.utf8ByteSize) then .error .argumentTooLong

end Engine

end Segue
