import Segue.Job.Service

/-!
One way to run a service: jobs go on as long as they can, and the engine when no job can. A job gives
others a turn where it waits for files or for the engine. Work on files can be held up, and then a job
stops at it.
-/

namespace Segue

/-- Whether a request is work on files that may take its time. -/
def Request.isFileWork : Request → Bool
  | .sourceExists _ | .engineAvailable | .makeOutputDirectory _ | .removeOutput _ | .writeSheet .. => true
  | _ => false

/-- Whether a job gives others a turn at a request. -/
def Request.isTurn : Request → Bool
  | .hearEngine | .awaitEngine | .stopEngine => true
  | request => request.isFileWork

namespace Service

/-- The ids of the jobs started so far. -/
def ids (service : Service) : List Nat := List.range service.tasks.length

/-- A job goes on, unless its work on files is held up. -/
def stepUnlessHeld? (holding : Bool) (service : Service) (id : Nat) : Option Service := do
  let request ← service.request? id
  if holding && request.isFileWork then none else service.stepJob? id

/-- The next move: of the first job that can go on, or else of the first engine that can. -/
def advance? (holding : Bool) (service : Service) : Option Service :=
  match service.ids.findSome? (service.stepUnlessHeld? holding) with
  | some service => some service
  | none => service.ids.findSome? service.stepEngine?

/-- Whether every job has ended or gives others a turn. -/
def isAtTurn (service : Service) : Bool :=
  service.ids.all fun id => ((service.request? id).map Request.isTurn).getD true

/-- Moves on until something holds or nothing can move, at most so often. -/
def runUpTo (holding : Bool) (stop : Service → Bool) : Nat → Service → Service
  | 0, service => service
  | moves + 1, service =>
    if stop service then service
    else match service.advance? holding with
      | some service => runUpTo holding stop moves service
      | none => service

/-- The moves that a run of the engine and the hearing of it take. -/
def movesOfScript (script : EngineScript) : Nat := 3 * script.actions.length

/-- The moves that a job and its running engine take, other engines apart. -/
def movesOfTask (task : Task) : Nat :=
  64 + 16 * task.job.tracks.length
    + match task.run with
      | some run => 3 * run.unheard.length + movesOfScript run.script
      | none => 0

/-- At least as many moves as there can be until every job has ended. -/
def moveCount (service : Service) : Nat :=
  let tasks := service.tasks.foldl (fun count task => count + movesOfTask task) 0
  service.scripts.foldl (fun count script => count + movesOfScript script) tasks

/-- Moves on until something holds or nothing can move. -/
def runUntil (holding : Bool) (stop : Service → Bool) (service : Service) : Service :=
  runUpTo holding stop service.moveCount service

/-- Moves on as long as anything can move. -/
def settle (holding : Bool) (service : Service) : Service := service.runUntil holding fun _ => false

/-- Moves on until a job has ended. -/
def finish (id : Nat) (service : Service) : Service :=
  service.runUntil false fun service => (service.outcome? id).isSome

/-- Makes at least one move, and further ones until all jobs give others a turn. -/
def turn? (holding : Bool) (service : Service) : Option Service :=
  (service.advance? holding).map (runUntil holding isAtTurn)

end Service

end Segue
