import Segue.Job.Service

/-!
What a job can do. Main statements: every step of a job is one of a list, with what it asks for,
what it is answered, and where that takes it; and a job keeps its identity and what is told of its
export.
-/

namespace Segue

def Request.announced : Request → List Event
  | .announce event => [event]
  | _ => []

/-- An answer to a request agrees with whether the job has been asked to stop. -/
def Request.Honest (isCancelled : Bool) : (request : Request) → request.Answer → Prop
  | .isCancelled, answer => answer = isCancelled
  | .hearEngine, .cancelled => isCancelled = true
  | .hearEngine, _ => isCancelled = false
  | .awaitEngine, answer => answer.isNone = isCancelled
  | _, _ => True

/-- Whether a job at some point is about to look whether it has been cancelled. -/
def Point.isCheck : Point → Bool
  | .enter _ | .beforeMeasuring _ | .afterMeasuring _ => true
  | .engine _ _ .checkBefore | .engine _ _ (.checkAfter _) => true
  | _ => false

theorem Point.check_cases {point : Point} (h : point.isCheck = true) :
    (∃ phase, point = .enter phase) ∨ (∃ index, point = .beforeMeasuring index) ∨
      (∃ index, point = .afterMeasuring index) ∨ (∃ use tail, point = .engine use tail .checkBefore) ∨
      ∃ use tail status, point = .engine use tail (.checkAfter status) := by
  cases point with
  | enter phase => exact .inl ⟨phase, rfl⟩
  | beforeMeasuring index => exact .inr (.inl ⟨index, rfl⟩)
  | afterMeasuring index => exact .inr (.inr (.inl ⟨index, rfl⟩))
  | engine use tail stage =>
      cases stage with
      | checkBefore => exact .inr (.inr (.inr (.inl ⟨use, tail, rfl⟩)))
      | checkAfter status => exact .inr (.inr (.inr (.inr ⟨use, tail, status, rfl⟩)))
      | _ => cases h
  | _ => cases h

namespace Job

/-- The job once the measurement of the track of an index counts. -/
def announceMeasured (job : Job) (index : Nat) : Job :=
  let job := { job with percent := Progress.afterMeasuring (index + 1) job.tracks.length }
  job.goTo (.announce (job.event (some ("Analyzed " ++ job.titleOf index)) none) (job.measureFrom (index + 1)).point)

def storeSettings (job : Job) (file : Path) (text : String) : Job :=
  match file.parent? with
  | some _ => job.goTo (.makeSettingsDirectory file text)
  | none => job.goTo (.writeSettings file text)

/-- One step of a job that has been asked to stop, or has not. -/
inductive Goes (isCancelled : Bool) (job : Job) : (request : Request) → request.Answer → Job → Prop
  | halt (hpoint : job.point.isCheck = true) (hcancelled : isCancelled = true) :
      Goes isCancelled job .isCancelled true job.halt
  | enter {phase : Phase} (hpoint : job.point = .enter phase) (hcancelled : isCancelled = false) :
      Goes isCancelled job .isCancelled false (job.enter phase)
  | announce {event : Event} {next : Point} (hpoint : job.point = .announce event next) :
      Goes isCancelled job (.announce event) () (job.goTo next)
  | checkSource {track : Track Float} {rest : List (Track Float)} {missing : List String}
      (hpoint : job.point = .checkSource track rest missing) (found : Bool) :
      Goes isCancelled job (.sourceExists (job.request.mix.sourcePath track)) found
        (job.checkSources rest (if found then missing else missing ++ [track.title]))
  | engineFound (hpoint : job.point = .checkEngine) :
      Goes isCancelled job .engineAvailable true
        (job.goTo (.enter (if job.request.settings.normalize then .analyzing else .rendering)))
  | engineMissing (hpoint : job.point = .checkEngine) :
      Goes isCancelled job .engineAvailable false
        (job.fail (.unsupported ("encoding engine '" ++ Engine.name ++ "' is not available")))
  | measure {index : Nat} (hpoint : job.point = .beforeMeasuring index) (hcancelled : isCancelled = false) :
      Goes isCancelled job .isCancelled false (job.runEngine (.measuring index []))
  | measured {index : Nat} (hpoint : job.point = .afterMeasuring index) (hcancelled : isCancelled = false) :
      Goes isCancelled job .isCancelled false (job.announceMeasured index)
  | directoryMade {directory : Path} {use : EngineUse} (hpoint : job.point = .makeDirectory directory use) :
      Goes isCancelled job (.makeOutputDirectory directory) (.ok ()) (job.runEngine use)
  | directoryRefused {directory : Path} {use : EngineUse} (hpoint : job.point = .makeDirectory directory use)
      (error : FileError) :
      Goes isCancelled job (.makeOutputDirectory directory) (.error error)
        (job.fail (.render ("cannot create " ++ directory.text ++ ": " ++ error.message) ""))
  | beforeStart {use : EngineUse} {tail : DiagnosticTail} (hpoint : job.point = .engine use tail .checkBefore)
      (hcancelled : isCancelled = false) :
      Goes isCancelled job .isCancelled false (job.goTo (.engine use tail .start))
  | started {use : EngineUse} {tail : DiagnosticTail} (hpoint : job.point = .engine use tail .start) :
      Goes isCancelled job (.startEngine (job.argumentsOf use)) (.ok ()) (job.goTo (.engine use tail .hear))
  | startRefused {use : EngineUse} {tail : DiagnosticTail} (hpoint : job.point = .engine use tail .start)
      (error : StartError) :
      Goes isCancelled job (.startEngine (job.argumentsOf use)) (.error error)
        (job.fail (job.startFailure error use))
  | heard {use : EngineUse} {tail : DiagnosticTail} (hpoint : job.point = .engine use tail .hear)
      (hcancelled : isCancelled = false) (bytes : List UInt8) (elapsed : Float) :
      Goes isCancelled job .hearEngine (.piece bytes elapsed)
        (job.hear use tail (Text.decodeLossy bytes) elapsed)
  | heardAll {use : EngineUse} {tail : DiagnosticTail} (hpoint : job.point = .engine use tail .hear)
      (hcancelled : isCancelled = false) :
      Goes isCancelled job .hearEngine .silence (job.goTo (.engine use tail .await))
  | stopHearing {use : EngineUse} {tail : DiagnosticTail} (hpoint : job.point = .engine use tail .hear)
      (hcancelled : isCancelled = true) :
      Goes isCancelled job .hearEngine .cancelled (job.goTo (.engine use tail .stop))
  | awaited {use : EngineUse} {tail : DiagnosticTail} (hpoint : job.point = .engine use tail .await)
      (hcancelled : isCancelled = false) (status : ExitStatus) :
      Goes isCancelled job .awaitEngine (some status) (job.goTo (.engine use tail (.checkAfter status)))
  | stopAwaiting {use : EngineUse} {tail : DiagnosticTail} (hpoint : job.point = .engine use tail .await)
      (hcancelled : isCancelled = true) :
      Goes isCancelled job .awaitEngine none (job.goTo (.engine use tail .stop))
  | stopped {use : EngineUse} {tail : DiagnosticTail} (hpoint : job.point = .engine use tail .stop) :
      Goes isCancelled job .stopEngine () job.halt
  | finishRun {use : EngineUse} {tail : DiagnosticTail} {status : ExitStatus}
      (hpoint : job.point = .engine use tail (.checkAfter status)) (hcancelled : isCancelled = false) :
      Goes isCancelled job .isCancelled false (job.finishRun use tail status)
  | sheetWritten (hpoint : job.point = .writeSheet) :
      Goes isCancelled job (.writeSheet (CueSheet.pathBeside job.request.output) job.sheetText) () job.persist
  | settingsRead {file : Path} (hpoint : job.point = .readSettings file) (stored : Option String) :
      Goes isCancelled job (.readSettings file) stored (job.goTo (.stampSettings file (Config.ofStored stored)))
  | settingsStamped {file : Path} {config : Config} (hpoint : job.point = .stampSettings file config)
      (time : String) :
      Goes isCancelled job .timeStamp time
        (job.storeSettings file (config.remember job.request.settings time).fileText)
  | settingsPlaceMade {file : Path} {text : String} (hpoint : job.point = .makeSettingsDirectory file text) :
      Goes isCancelled job (.makeSettingsDirectory (file.parent?.getD ⟨""⟩)) (.ok ())
        (job.goTo (.writeSettings file text))
  | settingsPlaceRefused {file : Path} {text : String} (hpoint : job.point = .makeSettingsDirectory file text)
      (error : FileError) :
      Goes isCancelled job (.makeSettingsDirectory (file.parent?.getD ⟨""⟩)) (.error error) job.complete
  | settingsWritten {file : Path} {text : String} (hpoint : job.point = .writeSettings file text) :
      Goes isCancelled job (.writeSettings file text) () job.complete
  | removed (hpoint : job.point = .removeOutput) :
      Goes isCancelled job (.removeOutput job.request.output) () (job.goTo (.release .cancelled))
  | released {outcome : Outcome} (hpoint : job.point = .release outcome) :
      Goes isCancelled job .releaseSlot () (job.conclude outcome)
  | closed {outcome : Outcome} (hpoint : job.point = .close outcome) :
      Goes isCancelled job .releaseSlot () (job.goTo (.ended outcome))

/-- The list is complete. -/
theorem goes_of_next {isCancelled : Bool} {job : Job} {request : Request} {resume : request.Answer → Job}
    (hnext : job.next = .ask request resume) (answer : request.Answer)
    (hanswer : request.Honest isCancelled answer) : Goes isCancelled job request answer (resume answer) := by
  rw [next] at hnext
  cases hpoint : job.point with
  | enter phase =>
      rw [hpoint] at hnext
      cases hnext
      cases answer with
      | true => exact .halt (by rw [hpoint]; rfl) hanswer.symm
      | false => exact .enter hpoint hanswer.symm
  | announce event next =>
      rw [hpoint] at hnext
      cases hnext
      exact .announce hpoint
  | checkSource track rest missing =>
      rw [hpoint] at hnext
      cases hnext
      exact .checkSource hpoint answer
  | checkEngine =>
      rw [hpoint] at hnext
      cases hnext
      cases answer with
      | true => exact .engineFound hpoint
      | false => exact .engineMissing hpoint
  | beforeMeasuring index =>
      rw [hpoint] at hnext
      cases hnext
      cases answer with
      | true => exact .halt (by rw [hpoint]; rfl) hanswer.symm
      | false => exact .measure hpoint hanswer.symm
  | afterMeasuring index =>
      rw [hpoint] at hnext
      cases hnext
      cases answer with
      | true => exact .halt (by rw [hpoint]; rfl) hanswer.symm
      | false => exact .measured hpoint hanswer.symm
  | makeDirectory directory use =>
      rw [hpoint] at hnext
      cases hnext
      cases answer with
      | ok => exact .directoryMade hpoint
      | error error => exact .directoryRefused hpoint error
  | engine use tail stage =>
      rw [hpoint] at hnext
      cases stage with
      | checkBefore =>
          cases hnext
          cases answer with
          | true => exact .halt (by rw [hpoint]; rfl) hanswer.symm
          | false => exact .beforeStart hpoint hanswer.symm
      | start =>
          cases hnext
          cases answer with
          | ok => exact .started hpoint
          | error error => exact .startRefused hpoint error
      | hear =>
          cases hnext
          cases answer with
          | piece bytes elapsed => exact .heard hpoint hanswer bytes elapsed
          | silence => exact .heardAll hpoint hanswer
          | cancelled => exact .stopHearing hpoint hanswer
      | await =>
          cases hnext
          cases answer with
          | none => exact .stopAwaiting hpoint hanswer.symm
          | some status => exact .awaited hpoint hanswer.symm status
      | stop =>
          cases hnext
          exact .stopped hpoint
      | checkAfter status =>
          cases hnext
          cases answer with
          | true => exact .halt (by rw [hpoint]; rfl) hanswer.symm
          | false => exact .finishRun hpoint hanswer.symm
  | writeSheet =>
      rw [hpoint] at hnext
      cases hnext
      exact .sheetWritten hpoint
  | readSettings file =>
      rw [hpoint] at hnext
      cases hnext
      exact .settingsRead hpoint answer
  | stampSettings file config =>
      rw [hpoint] at hnext
      cases hnext
      exact .settingsStamped hpoint answer
  | makeSettingsDirectory file text =>
      rw [hpoint] at hnext
      cases hnext
      cases answer with
      | ok => exact .settingsPlaceMade hpoint
      | error error => exact .settingsPlaceRefused hpoint error
  | writeSettings file text =>
      rw [hpoint] at hnext
      cases hnext
      exact .settingsWritten hpoint
  | removeOutput =>
      rw [hpoint] at hnext
      cases hnext
      exact .removed hpoint
  | release outcome =>
      rw [hpoint] at hnext
      cases hnext
      exact .released hpoint
  | close outcome =>
      rw [hpoint] at hnext
      cases hnext
      exact .closed hpoint
  | ended outcome =>
      rw [hpoint] at hnext
      cases hnext

/-- A step is one of what a job asks for. -/
theorem Goes.asks {isCancelled : Bool} {job job' : Job} {request : Request} {answer : request.Answer}
    (h : Goes isCancelled job request answer job') : ∃ resume, job.next = .ask request resume := by
  cases h with
  | halt hcheck =>
      rcases Point.check_cases hcheck with
        ⟨_, hpoint⟩ | ⟨_, hpoint⟩ | ⟨_, hpoint⟩ | ⟨_, _, hpoint⟩ | ⟨_, _, _, hpoint⟩ <;>
        rw [next, hpoint] <;> exact ⟨_, rfl⟩
  | _ =>
      rw [next, ‹job.point = _›]
      exact ⟨_, rfl⟩

/-- Two states of one job: what it is, where it writes to, and what its tracks are called. -/
structure Keeps (job job' : Job) : Prop where
  id : job'.id = job.id
  settingsFile : job'.settingsFile = job.settingsFile
  settings : job'.request.settings = job.request.settings
  output : job'.request.output = job.request.output
  titles : job'.tracks.map Track.title = job.tracks.map Track.title

namespace Keeps

theorem trans {first second third : Job} (h : first.Keeps second) (h' : second.Keeps third) : first.Keeps third :=
  ⟨h'.id.trans h.id, h'.settingsFile.trans h.settingsFile, h'.settings.trans h.settings,
    h'.output.trans h.output, h'.titles.trans h.titles⟩

theorem length_tracks {job job' : Job} (h : job.Keeps job') : job'.tracks.length = job.tracks.length := by
  simpa using congrArg List.length h.titles

variable (job : Job)

theorem goTo (point : Point) : job.Keeps (job.goTo point) := ⟨rfl, rfl, rfl, rfl, rfl⟩

theorem recordMeasurement (index : Nat) (measured : Measurement Float) :
    job.Keeps (job.recordMeasurement index measured) where
  id := rfl
  settingsFile := rfl
  settings := rfl
  output := rfl
  titles := by
    change (job.tracks.modify index fun track => { track with loudness := some measured }).map Track.title = _
    apply List.ext_getElem?
    intro place
    rw [List.getElem?_map, List.getElem?_map, List.getElem?_modify]
    cases job.tracks[place]? with
    | none => rfl
    | some track =>
        simp only [Option.map_eq_map, Option.map_some]
        split <;> rfl

theorem persist : job.Keeps job.persist := by
  unfold Job.persist
  split <;> exact goTo job _

theorem checkSources (tracks : List (Track Float)) (missing : List String) :
    job.Keeps (job.checkSources tracks missing) := by
  unfold Job.checkSources
  split
  · exact goTo job _
  · split <;> exact goTo job _

theorem enter (phase : Phase) : job.Keeps (job.enter phase) := by
  cases phase <;> exact ⟨rfl, rfl, rfl, rfl, rfl⟩

theorem hear (use : EngineUse) (tail : DiagnosticTail) (piece : List Char) (elapsed : Float) :
    job.Keeps (job.hear use tail piece elapsed) := by
  unfold Job.hear
  cases use with
  | measuring index heard => exact goTo job _
  | encoding arguments duration reached =>
      dsimp only
      split
      · exact goTo job _
      · split <;> exact goTo job _

theorem finishRun (use : EngineUse) (tail : DiagnosticTail) (status : ExitStatus) :
    job.Keeps (job.finishRun use tail status) := by
  unfold Job.finishRun
  cases use with
  | measuring index heard =>
      dsimp only
      split
      · exact goTo job _
      · split
        · exact goTo job _
        · exact (recordMeasurement job _ _).trans (goTo _ _)
  | encoding arguments duration reached =>
      dsimp only
      split
      · exact goTo job _
      · split
        · exact ⟨rfl, rfl, rfl, rfl, rfl⟩
        · have hpercent : job.Keeps { job with percent := 100.0 } := ⟨rfl, rfl, rfl, rfl, rfl⟩
          exact hpercent.trans (persist _)

theorem storeSettings (file : Path) (text : String) : job.Keeps (job.storeSettings file text) := by
  unfold Job.storeSettings
  split <;> exact goTo job _

end Keeps

/-- A step keeps what a job is. -/
theorem Goes.keeps {isCancelled : Bool} {job job' : Job} {request : Request} {answer : request.Answer}
    (h : Goes isCancelled job request answer job') : job.Keeps job' := by
  cases h with
  | enter => exact Keeps.enter job _
  | checkSource => exact Keeps.checkSources job _ _
  | heard => exact Keeps.hear job _ _ _ _
  | finishRun => exact Keeps.finishRun job _ _ _
  | sheetWritten => exact Keeps.persist job
  | settingsStamped => exact Keeps.storeSettings job _ _
  | released => exact ⟨rfl, rfl, rfl, rfl, rfl⟩
  | measured => exact ⟨rfl, rfl, rfl, rfl, rfl⟩
  | _ => exact Keeps.goTo job _

end Job

/-- What is announced at a point is announced for a job. -/
def Point.Speaks (id : Nat) : Point → Prop
  | .announce event next => event.job = id ∧ next.Speaks id
  | _ => True

namespace Job

theorem speaks_checkSources (job : Job) (tracks : List (Track Float)) (missing : List String) (id : Nat) :
    (job.checkSources tracks missing).point.Speaks id := by
  unfold checkSources
  split
  · trivial
  · split <;> trivial

theorem speaks_measureFrom (job : Job) (index id : Nat) : (job.measureFrom index).point.Speaks id := by
  unfold measureFrom
  dsimp only [goTo]
  split <;> trivial

theorem speaks_prepare (job : Job) (id : Nat) : job.prepare.point.Speaks id := by
  unfold prepare
  dsimp only
  split
  · trivial
  · split
    · split <;> trivial
    · trivial

theorem speaks_persist (job : Job) (id : Nat) : job.persist.point.Speaks id := by
  unfold persist
  split <;> trivial

theorem speaks_enter (job : Job) (phase : Phase) (h : job.point.Speaks job.id) :
    (job.enter phase).point.Speaks job.id := by
  cases phase with
  | validating => exact ⟨rfl, speaks_checkSources job _ _ _⟩
  | analyzing => exact ⟨rfl, speaks_measureFrom job _ _⟩
  | rendering => exact ⟨rfl, speaks_prepare _ _⟩
  | _ => exact h

theorem speaks_hear (job : Job) (use : EngineUse) (tail : DiagnosticTail) (piece : List Char) (elapsed : Float) :
    (job.hear use tail piece elapsed).point.Speaks job.id := by
  unfold hear
  cases use with
  | measuring index heard => trivial
  | encoding arguments duration reached =>
      dsimp only
      split
      · trivial
      · split
        · trivial
        · exact ⟨rfl, trivial⟩

theorem speaks_finishRun (job : Job) (use : EngineUse) (tail : DiagnosticTail) (status : ExitStatus) :
    (job.finishRun use tail status).point.Speaks job.id := by
  unfold finishRun
  cases use with
  | measuring index heard =>
      dsimp only
      split
      · trivial
      · split <;> trivial
  | encoding arguments duration reached =>
      dsimp only
      split
      · trivial
      · split
        · exact ⟨rfl, trivial⟩
        · exact speaks_persist _ _

theorem forall_announced_of_eq_nil {request : Request} {p : Event → Prop} (h : request.announced = []) :
    ∀ event ∈ request.announced, p event := by
  rw [h]
  exact List.forall_mem_nil p

/-- A job announces nothing but its own events. -/
theorem Goes.speaks {isCancelled : Bool} {job job' : Job} {request : Request} {answer : request.Answer}
    (h : Goes isCancelled job request answer job') (hspeaks : job.point.Speaks job.id) :
    job'.point.Speaks job.id ∧ ∀ event ∈ request.announced, event.job = job.id := by
  cases h with
  | announce hpoint =>
      rw [hpoint] at hspeaks
      exact ⟨hspeaks.2, fun event hevent => by rw [List.mem_singleton.mp hevent]; exact hspeaks.1⟩
  | enter => exact ⟨speaks_enter job _ hspeaks, forall_announced_of_eq_nil rfl⟩
  | checkSource => exact ⟨speaks_checkSources job _ _ _, forall_announced_of_eq_nil rfl⟩
  | measured => exact ⟨⟨rfl, speaks_measureFrom _ _ _⟩, forall_announced_of_eq_nil rfl⟩
  | heard => exact ⟨speaks_hear job _ _ _ _, forall_announced_of_eq_nil rfl⟩
  | finishRun => exact ⟨speaks_finishRun job _ _ _, forall_announced_of_eq_nil rfl⟩
  | sheetWritten => exact ⟨speaks_persist job _, forall_announced_of_eq_nil rfl⟩
  | settingsStamped =>
      refine ⟨?_, forall_announced_of_eq_nil rfl⟩
      unfold storeSettings
      split <;> trivial
  | released => exact ⟨⟨rfl, trivial⟩, forall_announced_of_eq_nil rfl⟩
  | _ => exact ⟨trivial, forall_announced_of_eq_nil rfl⟩

/-- Any number of steps, with what is announced in them. -/
inductive Reaches (job : Job) : List Event → Job → Prop
  | refl : Reaches job [] job
  | go {told : List Event} {between job' : Job} {isCancelled : Bool} {request : Request} {answer : request.Answer}
      (h : Reaches job told between) (hgoes : Goes isCancelled between request answer job') :
      Reaches job (told ++ request.announced) job'

theorem Reaches.keeps {job job' : Job} {told : List Event} (h : job.Reaches told job') : job.Keeps job' := by
  induction h with
  | refl => exact ⟨rfl, rfl, rfl, rfl, rfl⟩
  | go _ hgoes ih => exact ih.trans hgoes.keeps

end Job

end Segue
