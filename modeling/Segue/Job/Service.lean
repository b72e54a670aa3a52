import Segue.Engine.Script
import Segue.Job.Basic

/-!
The service that runs render jobs, one at a time, together with the world that its jobs work in: the
files, the engine and its runs, the clock. It goes on in single moves, and any order of moves that are
possible is a run of it. A job takes the only slot when it is started and gives it back when all but
its last event is done.
-/

namespace Segue

/-- A job that has been started, and what the service keeps about it. -/
structure Task where
  job : Job
  /-- Whether the job has been asked to stop. -/
  isCancelled : Bool := false
  /-- The engine that the job has started and has not yet seen the end of. -/
  run : Option EngineRun := none
  /-- The time when that engine was started. -/
  startedAt : Float := 0.0

/-- How the job has ended. -/
def Task.outcome? (task : Task) : Option Outcome :=
  match task.job.point with
  | .ended outcome => some outcome
  | _ => none

/-- The service and its world. -/
structure Service where
  engine : Engine
  /-- Where the settings of completed exports are kept. -/
  settingsFile : Option Path := none
  files : FileTree := {}
  /-- What the next runs of the engine will do; a further one ends at once. -/
  scripts : List EngineScript := []
  /-- The runs of the engine so far, each with its job and its arguments. -/
  invocations : List (Nat × List String) := []
  /-- The job that occupies the slot. -/
  slot : Option Nat := none
  /-- The jobs started so far; a job's id is its position. -/
  tasks : List Task := []
  /-- The events announced so far. -/
  events : List Event := []
  /-- The seconds that have passed. -/
  clock : Float := 0.0
  /-- The date and time that is written down. -/
  date : String := ""

/-- One move of the service or of its world. -/
inductive Move where
  | start (request : ExportRequest)
  | cancel
  /-- A job goes on to its next request. -/
  | job (id : Nat)
  /-- The engine that a job has started does its next action. -/
  | engine (id : Nat)
  /-- The engine that a job has started is told to go on. -/
  | resume (id : Nat)
  | pass (seconds : Float)

namespace Service

/-- The service with what it keeps about a job changed. -/
def update (service : Service) (id : Nat) (change : Task → Task) : Service :=
  { service with tasks := service.tasks.modify id change }

/-- Starts a job, unless the slot is occupied. -/
def start (service : Service) (request : ExportRequest) : Except Failure (Nat × Service) :=
  if service.slot.isSome then .error .alreadyInProgress
  else
    let id := service.tasks.length
    let job : Job := { id, request, settingsFile := service.settingsFile }
    .ok (id, { service with slot := some id, tasks := service.tasks ++ [{ job }] })

/-- Asks the job in the slot to stop, and tells whether there is one. -/
def cancel (service : Service) : Bool × Service :=
  match service.slot with
  | some id => (true, service.update id fun task => { task with isCancelled := true })
  | none => (false, service)

/-- Gives the slot back, if it is this job's. -/
def release (service : Service) (id : Nat) : Service :=
  if service.slot = some id then { service with slot := none } else service

/-- Starts the engine for a job with arguments. -/
def startEngine (service : Service) (id : Nat) (arguments : List String) : Service :=
  let run : EngineRun :=
    { target := arguments.getLast?.map Path.mk, script := service.scripts.head?.getD {} }
  let service := { service with
    scripts := service.scripts.tail
    invocations := service.invocations ++ [(id, arguments)] }
  service.update id fun task => { task with run := some run, startedAt := service.clock }

/-- What a job hears of its engine; nothing yet when the engine is running and has said nothing new. -/
def hear (service : Service) (id : Nat) (task : Task) : Option (Heard × Service) :=
  if task.isCancelled then some (.cancelled, service)
  else match task.run with
    | none => some (.silence, service)
    | some run =>
      match run.unheard with
      | piece :: rest =>
        let heard := .piece piece (service.clock - task.startedAt)
        some (heard, service.update id fun task =>
          { task with run := some { run with unheard := rest } })
      | [] => if run.hasEnded then some (.silence, service) else none

/-- How a job's engine has ended; nothing yet while it is running. -/
def await (service : Service) (id : Nat) (task : Task) : Option (Option ExitStatus × Service) :=
  if task.isCancelled then some (none, service)
  else match task.run with
    | none => some (some (.exited 0), service)
    | some run =>
      if run.hasEnded then
        some (some run.script.status, service.update id fun task => { task with run := none })
      else none

/-- The service with other files, when there are any. -/
def withFiles (service : Service) (files : Except FileError FileTree) : Service :=
  match files with
  | .ok files => { service with files }
  | .error _ => service

/-- Makes a directory for a job. -/
def makeDirectories (service : Service) (path : Path) : Except FileError Unit × Service :=
  let (files, result) := service.files.makeDirectories path
  (result, { service with files })

/-- Answers a request of a job, unless the job has to wait for the engine. -/
def answer (service : Service) (id : Nat) (task : Task) :
    (request : Request) → Option (request.Answer × Service)
  | .isCancelled => some (task.isCancelled, service)
  | .announce event => some ((), { service with events := service.events ++ [event] })
  | .sourceExists path => some (service.files.contains path, service)
  | .engineAvailable => some (service.engine.isAvailable service.files, service)
  | .makeOutputDirectory path => some (service.makeDirectories path)
  | .startEngine arguments =>
    match service.engine.startable arguments service.files with
    | .ok () => some (.ok (), service.startEngine id arguments)
    | .error error => some (.error error, service)
  | .hearEngine => service.hear id task
  | .awaitEngine => service.await id task
  | .stopEngine => some ((), service.update id fun task => { task with run := none })
  | .removeOutput path => some ((), service.withFiles (service.files.remove path))
  | .writeSheet path text => some ((), service.withFiles (service.files.write path text))
  | .readSettings path => some ((service.files.read path).toOption, service)
  | .timeStamp => some (service.date, service)
  | .makeSettingsDirectory path => some (service.makeDirectories path)
  | .writeSettings path text => some ((), service.withFiles (service.files.write path text))
  | .releaseSlot => some ((), service.release id)

/-- A job goes on, unless it has ended or has to wait. -/
def stepJob? (service : Service) (id : Nat) : Option Service := do
  let task ← service.tasks[id]?
  match task.job.next with
  | .ended _ => none
  | .ask request resume =>
    let (answer, service) ← service.answer id task request
    return service.update id fun task => { task with job := resume answer }

/-- The engine of a job does its next action. -/
def stepEngine? (service : Service) (id : Nat) : Option Service := do
  let run ← (← service.tasks[id]?).run
  let (run, files) ← run.step? service.files
  return { service with files }.update id fun task => { task with run := some run }

/-- The service with the engine of a job told to go on. -/
def resumeEngine (service : Service) (id : Nat) : Service :=
  service.update id fun task => { task with run := task.run.map EngineRun.resume }

/-- Makes a move, if it is possible. A start that is refused is a move that changes nothing. -/
def move? (service : Service) : Move → Option Service
  | .start request =>
    match service.start request with
    | .ok (_, service) => some service
    | .error _ => some service
  | .cancel => some service.cancel.2
  | .job id => service.stepJob? id
  | .engine id => service.stepEngine? id
  | .resume id => some (service.resumeEngine id)
  | .pass seconds => some { service with clock := service.clock + seconds }

/-- Makes moves one after the other. -/
def moves? (service : Service) (moves : List Move) : Option Service := moves.foldlM move? service

/-- The request that a job is at. -/
def request? (service : Service) (id : Nat) : Option Request := do
  match (← service.tasks[id]?).job.next with
  | .ended _ => none
  | .ask request _ => some request

/-- How a job has ended. -/
def outcome? (service : Service) (id : Nat) : Option Outcome := do (← service.tasks[id]?).outcome?

end Service

end Segue
