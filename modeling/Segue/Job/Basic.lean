import Segue.Cue.Sheet
import Segue.DiagnosticTail
import Segue.Engine.Program
import Segue.Failure
import Segue.Job.Event
import Segue.Loudness.Statistics
import Segue.Loudness.Targets
import Segue.Mixing.Encoding
import Segue.Progress
import Segue.Settings.Record
import Segue.Text.Utf8

/-!
A render job, as a sequence of requests to the world around it. Between two requests a job only
computes, so whatever else goes on can come in at each request and nowhere else. The phases follow
each other in a fixed order: validating, analyzing when tracks are to be normalized, rendering, and
the cue sheet when one is wanted. A job looks whether it has been cancelled when it enters each of the
first three and around every run of the engine.
-/

namespace Segue

/-- What is heard of a running engine. -/
inductive Heard where
  | piece (bytes : List UInt8) (elapsed : Float)
  /-- Nothing more will be said. -/
  | silence
  /-- The job has been cancelled, which comes before anything there is to hear. -/
  | cancelled

/-- What a job asks for. -/
inductive Request where
  | isCancelled
  | announce (event : Event)
  | sourceExists (path : Path)
  | engineAvailable
  | makeOutputDirectory (path : Path)
  | startEngine (arguments : List String)
  | hearEngine
  /-- How the engine has ended; nothing when the job is cancelled first. -/
  | awaitEngine
  /-- Ends the engine and waits until it is gone. -/
  | stopEngine
  | removeOutput (path : Path)
  | writeSheet (path : Path) (text : String)
  | readSettings (path : Path)
  | timeStamp
  | makeSettingsDirectory (path : Path)
  | writeSettings (path : Path) (text : String)
  | releaseSlot

/-- What is answered. -/
abbrev Request.Answer : Request → Type
  | isCancelled | sourceExists _ | engineAvailable => Bool
  | announce _ | stopEngine | removeOutput _ | writeSheet .. | writeSettings .. | releaseSlot => Unit
  | makeOutputDirectory _ | makeSettingsDirectory _ => Except FileError Unit
  | startEngine _ => Except StartError Unit
  | hearEngine => Heard
  | awaitEngine => Option ExitStatus
  | readSettings _ => Option String
  | timeStamp => String

/-- What a run of the engine is for. -/
inductive EngineUse where
  /-- Measuring the track of an index; with what has been heard so far. -/
  | measuring (index : Nat) (heard : List Char)
  /-- Encoding a mix of an estimated length; with the highest percentage announced so far. -/
  | encoding (arguments : List String) (duration reached : Float)

/-- How far a run of the engine is. -/
inductive EngineStage where
  | checkBefore
  | start
  | hear
  | await
  | stop
  | checkAfter (status : ExitStatus)

/-- Where a job is in its work. -/
inductive Point where
  /-- Before a phase, which is not entered when the job has been cancelled. -/
  | enter (phase : Phase)
  | announce (event : Event) (next : Point)
  /-- Looking for the source of a track and then of the rest, with the titles of those that are missing
  so far. -/
  | checkSource (track : Track Float) (rest : List (Track Float)) (missing : List String)
  | checkEngine
  /-- Before the track of an index is measured. -/
  | beforeMeasuring (index : Nat)
  /-- After the track of an index has been measured. -/
  | afterMeasuring (index : Nat)
  | makeDirectory (directory : Path) (plan : EngineUse)
  | engine (use : EngineUse) (tail : DiagnosticTail) (stage : EngineStage)
  | writeSheet
  | readSettings (file : Path)
  | stampSettings (file : Path) (config : Config)
  | makeSettingsDirectory (file : Path) (text : String)
  | writeSettings (file : Path) (text : String)
  | removeOutput
  | release (outcome : Outcome)
  /-- Everything is done; the slot is given back once more, in case it had not been. -/
  | close (outcome : Outcome)
  | ended (outcome : Outcome)

/-- What is to be rendered, where to, and how. -/
structure ExportRequest where
  mix : Mix Float
  output : Path
  settings : ExportSettings

/-- A render job. -/
structure Job where
  id : Nat
  request : ExportRequest
  /-- Where the settings of a completed export are kept. -/
  settingsFile : Option Path
  phase : Phase := .validating
  percent : Float := 0.0
  point : Point := .enter .validating

/-- How a job goes on. -/
inductive Step where
  | ended (outcome : Outcome)
  | ask (request : Request) (resume : request.Answer → Job)

namespace Job

def tracks (job : Job) : List (Track Float) := job.request.mix.project.tracks

def goTo (job : Job) (point : Point) : Job := { job with point }

/-- The event that tells where the job is. -/
def event (job : Job) (message : Option String) (output : Option Path) : Event :=
  { job := job.id, phase := job.phase, percent := job.percent, message, output }

/-- The job in another phase, which it announces before it goes on. -/
def advance (job : Job) (phase : Phase) (percent : Float) (next : Point) : Job :=
  let job := { job with phase, percent }
  job.goTo (.announce (job.event none none) next)

/-- The job on its way to a failure. -/
def fail (job : Job) (failure : Failure) : Job := job.goTo (.release (.failed failure.message))

/-- The job on its way to being cancelled. -/
def halt (job : Job) : Job := job.goTo .removeOutput

/-- The job once its slot is free: the last event, and nothing else. -/
def conclude (job : Job) (outcome : Outcome) : Job :=
  let job := { job with
    phase := outcome.phase
    percent := match outcome with
      | .completed _ => 100.0
      | _ => job.percent }
  job.goTo (.announce (job.event (some outcome.message) outcome.output?) (.close outcome))

/-- The job once all its files are written. -/
def complete (job : Job) : Job := job.goTo (.release (.completed job.request.output))

/-- The job once its audio, and its cue sheet if any, are written. -/
def persist (job : Job) : Job :=
  match job.settingsFile with
  | some file => job.goTo (.readSettings file)
  | none => job.complete

/-- The title of the track of an index. -/
def titleOf (job : Job) (index : Nat) : String := (job.tracks[index]?.map (·.title)).getD ""

/-- The job looking for the sources of some tracks, and then for the engine. -/
def checkSources (job : Job) (tracks : List (Track Float)) (missing : List String) : Job :=
  match tracks with
  | track :: rest => job.goTo (.checkSource track rest missing)
  | [] => if missing.isEmpty then job.goTo .checkEngine else job.fail (.validation missing)

/-- The next track to be measured, or the next phase when there is none. -/
def measureFrom (job : Job) (index : Nat) : Job :=
  job.goTo (if index < job.tracks.length then .beforeMeasuring index else .enter .rendering)

/-- The job with what was measured of the track of an index. -/
def recordMeasurement (job : Job) (index : Nat) (measured : Measurement Float) : Job :=
  let mix := job.request.mix
  let tracks := mix.project.tracks.modify index fun track => { track with loudness := some measured }
  { job with request := { job.request with mix := { mix with project := { mix.project with tracks } } } }

/-- The job before its first run of the engine for a purpose. -/
def runEngine (job : Job) (use : EngineUse) : Job := job.goTo (.engine use {} .checkBefore)

/-- Plans the render and makes a place for its output. -/
def prepare (job : Job) : Job :=
  let request := job.request
  match request.mix.plan request.settings request.output with
  | .error error => job.fail (.graphBuild error.message)
  | .ok plan =>
    let use := EngineUse.encoding plan.arguments plan.duration job.percent
    match request.output.parent? with
    | some parent => if parent.text = "" then job.runEngine use else job.goTo (.makeDirectory parent use)
    | none => job.runEngine use

/-- The first thing a job does in a phase that it has entered. -/
def enter (job : Job) : Phase → Job
  | .validating => job.advance .validating 0.0 (job.checkSources job.tracks []).point
  | .analyzing => job.advance .analyzing 0.0 (job.measureFrom 0).point
  | .rendering =>
    let job := { job with phase := .rendering, percent := Progress.measuringShare }
    job.goTo (.announce (job.event none none) job.prepare.point)
  | _ => job

/-- The arguments of a run of the engine. -/
def argumentsOf (job : Job) : EngineUse → List String
  | .measuring index _ =>
    match job.tracks[index]? with
    | some track => measuringArguments (job.request.mix.sourcePath track) .standard
    | none => []
  | .encoding arguments _ _ => arguments

/-- The failure of an engine that cannot be started. -/
def startFailure (job : Job) (error : StartError) : EngineUse → Failure
  | .measuring index _ => .analysis (job.titleOf index ++ ": failed to run engine: " ++ error.message)
  | .encoding .. => .render ("failed to run encoder: " ++ error.message) ""

/-- Takes in a piece of what the engine says. While encoding, a time in it that does not go back is
announced. -/
def hear (job : Job) (use : EngineUse) (tail : DiagnosticTail) (piece : List Char) (elapsed : Float) :
    Job :=
  let tail := tail.push piece
  match use with
  | .measuring index heard => job.goTo (.engine (.measuring index (heard ++ piece)) tail .hear)
  | .encoding arguments duration reached =>
    match Progress.elapsed? piece with
    | none => job.goTo (.engine use tail .hear)
    | some encoded =>
      let progress := Progress.rendering encoded duration elapsed
      if progress.percent < reached then job.goTo (.engine use tail .hear)
      else
        let event : Event :=
          { job := job.id, phase := .rendering, percent := progress.percent
            remaining := progress.remaining }
        job.goTo (.announce event (.engine (.encoding arguments duration progress.percent) tail .hear))

/-- Goes on after a run of the engine that was not cancelled. -/
def finishRun (job : Job) (use : EngineUse) (tail : DiagnosticTail) (status : ExitStatus) : Job :=
  match use with
  | .measuring index heard =>
    let title := job.titleOf index
    if !status.isSuccess then
      job.fail (.analysis (title ++ ": loudness pass exited with " ++ status.text ++ "\n"
        ++ Text.trim tail.text))
    else match Measurement.ofOutput heard with
      | .error error => job.fail (.analysis (title ++ ": " ++ (Failure.analysis error.message).message))
      | .ok measured => (job.recordMeasurement index measured).goTo (.afterMeasuring index)
  | .encoding .. =>
    if !status.isSuccess then
      job.fail (.render ("encoder exited with " ++ status.text) tail.text)
    else
      let job := { job with percent := 100.0 }
      if job.request.settings.writesCueSheet then job.advance .cue 100.0 .writeSheet else job.persist

/-- The next request of a run of the engine. -/
def nextOfRun (job : Job) (use : EngineUse) (tail : DiagnosticTail) : EngineStage → Step
  | .checkBefore =>
    .ask .isCancelled fun cancelled =>
      if cancelled then job.halt else job.goTo (.engine use tail .start)
  | .start =>
    .ask (.startEngine (job.argumentsOf use)) fun
      | .ok () => job.goTo (.engine use tail .hear)
      | .error error => job.fail (job.startFailure error use)
  | .hear =>
    .ask .hearEngine fun
      | .piece bytes elapsed => job.hear use tail (Text.decodeLossy bytes) elapsed
      | .silence => job.goTo (.engine use tail .await)
      | .cancelled => job.goTo (.engine use tail .stop)
  | .await =>
    .ask .awaitEngine fun
      | some status => job.goTo (.engine use tail (.checkAfter status))
      | none => job.goTo (.engine use tail .stop)
  | .stop => .ask .stopEngine fun () => job.halt
  | .checkAfter status =>
    .ask .isCancelled fun cancelled =>
      if cancelled then job.halt else job.finishRun use tail status

/-- The cue sheet of the mix as rendered. -/
def sheetText (job : Job) : String :=
  let request := job.request
  request.mix.cueSheet request.settings (request.output.fileName?.getD "")

/-- The next request of a job, and how its answer takes the job on. -/
def next (job : Job) : Step :=
  match job.point with
  | .enter phase =>
    .ask .isCancelled fun cancelled => if cancelled then job.halt else job.enter phase
  | .announce event next => .ask (.announce event) fun () => job.goTo next
  | .checkSource track rest missing =>
    .ask (.sourceExists (job.request.mix.sourcePath track)) fun found =>
      job.checkSources rest (if found then missing else missing ++ [track.title])
  | .checkEngine =>
    .ask .engineAvailable fun available =>
      if available then job.goTo (.enter (if job.request.settings.normalize then .analyzing else .rendering))
      else job.fail (.unsupported ("encoding engine '" ++ Engine.name ++ "' is not available"))
  | .beforeMeasuring index =>
    .ask .isCancelled fun cancelled =>
      if cancelled then job.halt else job.runEngine (.measuring index [])
  | .afterMeasuring index =>
    .ask .isCancelled fun cancelled =>
      if cancelled then job.halt
      else
        let job := { job with percent := Progress.afterMeasuring (index + 1) job.tracks.length }
        let event := job.event (some ("Analyzed " ++ job.titleOf index)) none
        job.goTo (.announce event (job.measureFrom (index + 1)).point)
  | .makeDirectory directory use =>
    .ask (.makeOutputDirectory directory) fun
      | .ok () => job.runEngine use
      | .error error => job.fail (.render ("cannot create " ++ directory.text ++ ": " ++ error.message) "")
  | .engine use tail stage => job.nextOfRun use tail stage
  | .writeSheet =>
    .ask (.writeSheet (CueSheet.pathBeside job.request.output) job.sheetText) fun () => job.persist
  | .readSettings file =>
    .ask (.readSettings file) fun stored => job.goTo (.stampSettings file (Config.ofStored stored))
  | .stampSettings file config =>
    .ask .timeStamp fun time =>
      let text := (config.remember job.request.settings time).fileText
      match file.parent? with
      | some _ => job.goTo (.makeSettingsDirectory file text)
      | none => job.goTo (.writeSettings file text)
  | .makeSettingsDirectory file text =>
    .ask (.makeSettingsDirectory (file.parent?.getD ⟨""⟩)) fun
      | .ok () => job.goTo (.writeSettings file text)
      | .error _ => job.complete
  | .writeSettings file text => .ask (.writeSettings file text) fun () => job.complete
  | .removeOutput => .ask (.removeOutput job.request.output) fun () => job.goTo (.release .cancelled)
  | .release outcome => .ask .releaseSlot fun () => job.conclude outcome
  | .close outcome => .ask .releaseSlot fun () => job.goTo (.ended outcome)
  | .ended outcome => .ended outcome

end Job

end Segue
