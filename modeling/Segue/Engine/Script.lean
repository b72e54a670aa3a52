import Segue.Engine.Program

/-!
What a run of the engine does, one action at a time: it may write a file, say something, wait until
it is told to go on, or never end. A job hears what has been said piece by piece.
-/

namespace Segue

/-- One thing that the engine does. -/
inductive EngineAction where
  /-- Writes text to the file that the last argument names; it does not mind if that fails. -/
  | write (text : String)
  /-- Says something that is heard in one piece. -/
  | say (piece : List UInt8)
  /-- Waits until it is resumed. -/
  | pause
  /-- Does nothing any more, and does not end. -/
  | hang
  deriving Repr, DecidableEq

/-- What a run of the engine will do and how it will end. -/
structure EngineScript where
  actions : List EngineAction := []
  status : ExitStatus := .exited 0
  deriving Repr, DecidableEq

/-- The most bytes that are heard at once. -/
def pieceSize : Nat := 8192

/-- Bytes cut into pieces of some size, the last one shorter. -/
def cutPieces {β : Type} (size : Nat) : Nat → List β → List (List β)
  | _, [] => []
  | 0, rest => [rest]
  | count + 1, rest => rest.take size :: cutPieces size count (rest.drop size)

/-- Says bytes at once; they are heard in as many pieces as they need. -/
def EngineAction.sayAll (bytes : List UInt8) : List EngineAction :=
  (cutPieces pieceSize bytes.length bytes).map .say

/-- A running engine. -/
structure EngineRun where
  /-- The file named by the last argument. -/
  target : Option Path
  script : EngineScript
  /-- What has been said and not yet heard. -/
  unheard : List (List UInt8) := []
  deriving Repr, DecidableEq

namespace EngineRun

/-- Whether the run has ended. -/
def hasEnded (run : EngineRun) : Bool := run.script.actions.isEmpty

/-- The run without its next action. -/
def advance (run : EngineRun) : EngineRun :=
  { run with script := { run.script with actions := run.script.actions.tail } }

/-- Does the next action, unless there is none or it waits. -/
def step? (run : EngineRun) (files : FileTree) : Option (EngineRun × FileTree) :=
  match run.script.actions with
  | .write text :: _ =>
    let files := match run.target with
      | some path => (files.write path text).toOption.getD files
      | none => files
    some (run.advance, files)
  | .say piece :: _ => some ({ run.advance with unheard := run.unheard ++ [piece] }, files)
  | .pause :: _ | .hang :: _ | [] => none

/-- Lets a paused run go on. -/
def resume (run : EngineRun) : EngineRun :=
  match run.script.actions with
  | .pause :: _ => run.advance
  | _ => run

end EngineRun

end Segue
