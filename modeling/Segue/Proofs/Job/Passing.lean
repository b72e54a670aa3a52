import Segue.Proofs.Job.Invocations
import Segue.Proofs.Mixing.Plan

/-!
Jobs whose sources and engine are all there. Main statement: such a job comes to the phase behind
validating in a known number of steps and without waiting, unless it is asked to stop, and it fails
only by what it does with its engine.
-/

namespace Segue

/-- The letter that a failure of a job begins with. -/
def Failure.letter? : Failure → Option Char
  | .validation _ => some 'M'
  | .unsupported _ => some 'U'
  | .graphBuild _ => some 'G'
  | .analysis _ => some 'L'
  | .render .. => some 'R'
  | _ => none

theorem head?_append_of_opening {opening : String} {letter : Char} (h : opening.toList.head? = some letter)
    (rest : String) : (opening ++ rest).toList.head? = some letter := by
  rw [String.toList_append, List.head?_append, h]
  rfl

theorem Failure.head?_message {failure : Failure} {letter : Char} (h : failure.letter? = some letter) :
    failure.message.toList.head? = some letter := by
  cases failure with
  | validation =>
      cases h
      exact head?_append_of_opening (by decide +kernel : "Missing source files for: ".toList.head? = some 'M') _
  | unsupported =>
      cases h
      exact head?_append_of_opening (by decide +kernel : "Unsupported operation: ".toList.head? = some 'U') _
  | graphBuild =>
      cases h
      exact head?_append_of_opening (by decide +kernel : "Graph build error: ".toList.head? = some 'G') _
  | analysis =>
      cases h
      exact head?_append_of_opening (by decide +kernel : "Loudness analysis error: ".toList.head? = some 'L') _
  | render message tail =>
      cases h
      have hopening := head?_append_of_opening (by decide +kernel : "Render error: ".toList.head? = some 'R') message
      exact head?_append_of_opening hopening _
  | _ => cases h

/-- What is said of a failure of one kind is never said of one of another kind. -/
theorem Failure.message_ne {failure other : Failure} {letter another : Char} (h : failure.letter? = some letter)
    (hother : other.letter? = some another) (hne : letter ≠ another) : failure.message ≠ other.message := by
  intro hsame
  have hhead := head?_message h
  rw [hsame, head?_message hother] at hhead
  exact hne (Option.some.inj hhead).symm

/-- What a job can fail by when its sources are there: by its engine, when that is missing, or in
the work with it; and by its mix, when that makes no graph. -/
def Failure.IsExcused (isAvailable : Bool) (isRenderable : Prop) : Failure → Prop
  | .unsupported _ => isAvailable = false
  | .graphBuild _ => ¬ isRenderable
  | .analysis _ | .render .. => True
  | _ => False

/-- An excuse can be told from what is said. -/
theorem Failure.IsExcused.of_message {failure other : Failure} {isAvailable : Bool} {isRenderable : Prop}
    (h : other.IsExcused isAvailable isRenderable) (hkind : failure.letter?.isSome = true)
    (hsame : failure.message = other.message) : failure.IsExcused isAvailable isRenderable := by
  have hother : other.letter?.isSome = true := by
    cases other <;> first | rfl | exact h.elim
  obtain ⟨letter, hletter⟩ := Option.isSome_iff_exists.mp hkind
  obtain ⟨another, hanother⟩ := Option.isSome_iff_exists.mp hother
  obtain rfl : letter = another := by_contra fun hne => message_ne hletter hanother hne hsame
  cases failure <;> cases hletter <;> cases other <;> first | exact h | cases hanother

/-- A job that fails has such an excuse. -/
def Outcome.IsExcused (isAvailable : Bool) (isRenderable : Prop) : Outcome → Prop
  | .failed message => ∃ failure : Failure, failure.IsExcused isAvailable isRenderable ∧ message = failure.message
  | _ => True

/-! ### Points -/

/-- A job at a point looks for its sources and its engine, and has found all that it has looked for. -/
def Point.Finds (files : FileTree) (mix : Mix Float) : Point → Prop
  | .enter phase => phase = .validating ∧ files.missingSources mix = []
  | .announce _ next => next.Finds files mix
  | .checkSource track rest missing => missing = [] ∧ files.missingOf mix (track :: rest) = []
  | .checkEngine => True
  | _ => False

/-- A job at a point has looked for its sources and found them, and looked for its engine. -/
def Point.HasFound (isAvailable : Bool) (isRenderable : Prop) : Point → Prop
  | .enter phase => phase ≠ .validating
  | .announce _ next => next.HasFound isAvailable isRenderable
  | .checkSource .. | .checkEngine => False
  | .release outcome | .close outcome | .ended outcome => outcome.IsExcused isAvailable isRenderable
  | _ => True

def ExportSettings.firstWork (settings : ExportSettings) : Phase :=
  if settings.normalize then .analyzing else .rendering

/-- The steps that are left at most until a job of some number of tracks announces a phase, if it
has not announced it yet. -/
def Point.stepsUntil? (count : Nat) (work : Phase) : Point → Option Nat
  | .enter phase => if phase = .validating then some (count + 5) else if phase = work then some 2 else none
  | .announce event next => if event.phase = work then some 1 else (next.stepsUntil? count work).map (· + 1)
  | .checkSource _ rest _ => some (rest.length + 4)
  | .checkEngine => some 3
  | _ => none

theorem Point.stepsUntil?_pos {count left : Nat} {work : Phase} {point : Point}
    (h : point.stepsUntil? count work = some left) : 0 < left := by
  cases point with
  | enter phase =>
      rw [stepsUntil?] at h
      split at h
      · cases h
        exact Nat.succ_pos _
      · split at h <;> cases h
        exact Nat.two_pos
  | announce event next =>
      rw [stepsUntil?] at h
      split at h
      · cases h
        exact Nat.one_pos
      · obtain ⟨rest, -, rfl⟩ := Option.map_eq_some_iff.mp h
        exact Nat.succ_pos rest
  | checkSource | checkEngine =>
      cases h
      exact Nat.succ_pos _
  | _ => cases h

/-- What is answered about the engine is whether it is there. -/
def Request.FindsEngine (isAvailable : Bool) : (request : Request) → request.Answer → Prop
  | .engineAvailable, found => found = isAvailable
  | _, _ => True

theorem ExportSettings.firstWork_ne (settings : ExportSettings) : settings.firstWork ≠ .validating := by
  unfold firstWork
  split <;> exact nofun

namespace Job

variable {job job' : Job} {isCancelled isAvailable : Bool} {isRenderable : Prop} {asked : Request}
  {answer : asked.Answer} {files : FileTree}

theorem hasFound_measureFrom (job : Job) (index : Nat) :
    (job.measureFrom index).point.HasFound isAvailable isRenderable := by
  unfold measureFrom
  dsimp only [goTo]
  split
  · trivial
  · exact nofun

theorem hasFound_fail (job : Job) {failure : Failure} (h : failure.IsExcused isAvailable isRenderable) :
    (job.fail failure).point.HasFound isAvailable isRenderable := ⟨failure, h, rfl⟩

/-- A mix that makes a graph has a plan. -/
theorem hasFound_prepare (job : Job) (h : isRenderable → job.request.mix.project.IsRenderable) :
    job.prepare.point.HasFound isAvailable isRenderable := by
  unfold prepare
  dsimp only
  split
  · rename_i error hplan
    have hexcuse : (Failure.graphBuild error.message).IsExcused isAvailable isRenderable := by
      intro hrenderable
      obtain ⟨plan, hplan'⟩ := Mix.exists_plan (h hrenderable) job.request.settings job.request.output
      cases hplan.symm.trans hplan'
    exact hasFound_fail job hexcuse
  · split
    · split <;> trivial
    · trivial

theorem hasFound_enter {phase : Phase} (hpoint : job.point = .enter phase) (hphase : phase ≠ .validating)
    (h : isRenderable → job.request.mix.project.IsRenderable) :
    (job.enter phase).point.HasFound isAvailable isRenderable := by
  cases phase with
  | validating => exact (hphase rfl).elim
  | analyzing => exact hasFound_measureFrom job _
  | rendering => exact hasFound_prepare { job with phase := .rendering, percent := _ } h
  | _ =>
      change job.point.HasFound _ _
      rw [hpoint]
      exact hphase

theorem hasFound_hear (job : Job) (use : EngineUse) (tail : DiagnosticTail) (piece : List Char) (elapsed : Float) :
    (job.hear use tail piece elapsed).point.HasFound isAvailable isRenderable := by
  obtain ⟨use', tail', -, h | ⟨event, h⟩⟩ := hear_cases job use tail piece elapsed <;> rw [h] <;> trivial

theorem hasFound_persist (job : Job) : job.persist.point.HasFound isAvailable isRenderable := by
  unfold persist
  split <;> trivial

theorem hasFound_storeSettings (job : Job) (file : Path) (text : String) :
    (job.storeSettings file text).point.HasFound isAvailable isRenderable := by
  unfold storeSettings
  split <;> trivial

theorem hasFound_finishRun (job : Job) (use : EngineUse) (tail : DiagnosticTail) (status : ExitStatus) :
    (job.finishRun use tail status).point.HasFound isAvailable isRenderable := by
  unfold finishRun
  cases use with
  | measuring index heard =>
      dsimp only
      split
      · exact hasFound_fail job trivial
      · split
        · exact hasFound_fail job trivial
        · trivial
  | encoding arguments duration reached =>
      dsimp only
      split
      · exact hasFound_fail job trivial
      · split
        · trivial
        · exact hasFound_persist _

theorem hasFound_startFailure (job : Job) (error : StartError) (use : EngineUse) :
    (job.fail (job.startFailure error use)).point.HasFound isAvailable isRenderable := by
  cases use <;> exact hasFound_fail job trivial

/-- What has been found stays found. -/
theorem Goes.hasFound (h : Goes isCancelled job asked answer job')
    (hrenderable : isRenderable → job.request.mix.project.IsRenderable)
    (hfound : job.point.HasFound isAvailable isRenderable) : job'.point.HasFound isAvailable isRenderable := by
  cases h with
  | enter hpoint =>
      rw [hpoint] at hfound
      exact hasFound_enter hpoint hfound hrenderable
  | announce hpoint =>
      rw [hpoint] at hfound
      exact hfound
  | checkSource hpoint | engineFound hpoint | engineMissing hpoint =>
      rw [hpoint] at hfound
      exact hfound.elim
  | measured => exact hasFound_measureFrom _ _
  | directoryRefused => exact hasFound_fail job trivial
  | startRefused => exact hasFound_startFailure job _ _
  | heard => exact hasFound_hear job _ _ _ _
  | finishRun => exact hasFound_finishRun job _ _ _
  | sheetWritten => exact hasFound_persist job
  | settingsStamped => exact hasFound_storeSettings job _ _
  | released hpoint | closed hpoint =>
      rw [hpoint] at hfound
      exact hfound
  | _ => trivial

theorem missingOf_cons_eq_nil {mix : Mix Float} {track : Track Float} {rest : List (Track Float)} :
    files.missingOf mix (track :: rest) = [] ↔
      files.contains (mix.sourcePath track) = true ∧ files.missingOf mix rest = [] := by
  simp [FileTree.missingOf]

theorem finds_checkSources {tracks : List (Track Float)} (h : files.missingOf job.request.mix tracks = []) :
    (job.checkSources tracks []).point.Finds files job.request.mix := by
  unfold checkSources
  split
  · exact ⟨rfl, h⟩
  · trivial

/-- A job finds what it looks for. -/
theorem Goes.finds (h : Goes isCancelled job asked answer job') (hpoint : job.point.Finds files job.request.mix)
    (hfinds : asked.Finds files answer) (hengine : asked.FindsEngine isAvailable answer) :
    job'.request = job.request ∧ job'.point.Finds files job.request.mix ∨
      job'.point.HasFound isAvailable isRenderable := by
  cases h with
  | halt => exact .inr trivial
  | @enter phase heq =>
      rw [heq] at hpoint
      obtain ⟨rfl, hmissing⟩ := hpoint
      exact .inl ⟨rfl, finds_checkSources hmissing⟩
  | announce heq =>
      rw [heq] at hpoint
      exact .inl ⟨rfl, hpoint⟩
  | @checkSource track rest missing heq found =>
      rw [heq] at hpoint
      obtain ⟨rfl, hmissing⟩ := hpoint
      obtain ⟨hcontains, hrest⟩ := missingOf_cons_eq_nil.mp hmissing
      cases (hfinds : found = _)
      rw [if_pos hcontains]
      exact .inl ⟨request_checkSources _ _, finds_checkSources hrest⟩
  | engineFound => exact .inr job.request.settings.firstWork_ne
  | engineMissing => exact .inr (hasFound_fail job hengine.symm)
  | _ =>
      rw [‹job.point = _›] at hpoint
      exact hpoint.elim

theorem Goes.isReadOnly_of_finds (h : Goes isCancelled job asked answer job')
    (hpoint : job.point.Finds files job.request.mix) : asked.isReadOnly = true := by
  cases h with
  | directoryMade heq | directoryRefused heq | sheetWritten heq | settingsPlaceMade heq | settingsPlaceRefused heq
  | settingsWritten heq | removed heq =>
      rw [heq] at hpoint
      exact hpoint.elim
  | _ => rfl

theorem stepsUntil?_checkSources (count : Nat) (work : Phase) (tracks : List (Track Float)) :
    ∃ left, (job.checkSources tracks []).point.stepsUntil? count work = some left ∧ left ≤ tracks.length + 3 := by
  unfold checkSources
  split
  · exact ⟨_, rfl, Nat.le_of_eq (Nat.add_right_comm _ 3 1)⟩
  · exact ⟨3, rfl, Nat.le_refl 3⟩

/-- A job that enters a phase looks for its sources, or announces its work. -/
theorem nears_enter (job : Job) {phase : Phase} {left : Nat}
    (hleft : (Point.enter phase).stepsUntil? job.tracks.length job.request.settings.firstWork = some left) :
    ∃ left', (job.enter phase).point.stepsUntil? job.tracks.length job.request.settings.firstWork = some left' ∧
      left' < left := by
  have hwork := job.request.settings.firstWork_ne
  rw [Point.stepsUntil?] at hleft
  split at hleft
  · rename_i hphase
    cases hphase
    cases hleft
    obtain ⟨rest, hrest, hle⟩ :=
      @stepsUntil?_checkSources job job.tracks.length job.request.settings.firstWork job.tracks
    refine ⟨rest + 1, ?_, by omega⟩
    change Point.stepsUntil? _ _ (.announce _ _) = _
    rw [Point.stepsUntil?, hrest]
    exact if_neg hwork.symm
  · split at hleft
    · rename_i hphase
      cases hphase
      cases hleft
      refine ⟨1, ?_, Nat.lt_succ_self 1⟩
      unfold ExportSettings.firstWork
      split <;> rfl
    · cases hleft

/-- A step takes a job nearer to its work, unless it has been asked to stop. -/
theorem Goes.nears (h : Goes isCancelled job asked answer job') {left : Nat}
    (hpoint : job.point.Finds files job.request.mix ∧ asked.Finds files answer ∧ asked.FindsEngine true answer ∨
      job.point.HasFound true isRenderable)
    (hleft : job.point.stepsUntil? job.tracks.length job.request.settings.firstWork = some left) :
    isCancelled = true ∨ (∃ event ∈ asked.announced, event.phase = job.request.settings.firstWork) ∨
      ∃ left', job'.point.stepsUntil? job.tracks.length job.request.settings.firstWork = some left' ∧ left' < left := by
  have hwork := job.request.settings.firstWork_ne
  cases h with
  | halt _ hcancelled => exact .inl hcancelled
  | enter heq =>
      rw [heq] at hleft
      exact .inr (.inr (nears_enter job hleft))
  | @announce event next heq =>
      rw [heq, Point.stepsUntil?] at hleft
      split at hleft
      · rename_i hphase
        exact .inr (.inl ⟨event, List.mem_singleton_self _, hphase⟩)
      · obtain ⟨rest, hrest, rfl⟩ := Option.map_eq_some_iff.mp hleft
        exact .inr (.inr ⟨rest, hrest, Nat.lt_succ_self rest⟩)
  | @checkSource track rest missing heq found =>
      rw [heq] at hpoint hleft
      obtain ⟨⟨rfl, hmissing⟩, hfinds, -⟩ := hpoint.resolve_right not_false
      cases (hfinds : found = _)
      cases hleft
      rw [if_pos (missingOf_cons_eq_nil.mp hmissing).1]
      obtain ⟨left, hleft, hle⟩ := @stepsUntil?_checkSources job job.tracks.length job.request.settings.firstWork rest
      exact .inr (.inr ⟨left, hleft, Nat.lt_succ_of_le hle⟩)
  | engineFound heq =>
      rw [heq] at hleft
      cases hleft
      refine .inr (.inr ⟨2, ?_, Nat.lt_succ_self 2⟩)
      change Point.stepsUntil? _ _ (.enter job.request.settings.firstWork) = _
      rw [Point.stepsUntil?, if_neg hwork, if_pos rfl]
  | engineMissing heq =>
      rw [heq] at hpoint
      cases (hpoint.resolve_right not_false).2.2
  | _ =>
      rw [‹job.point = _›] at hleft
      cases hleft

/-- On the way to its work a job does not wait. -/
theorem awaits_of_stepsUntil? {resume : asked.Answer → Job} {count left : Nat} {work : Phase}
    (hnext : job.next = .ask asked resume) (hleft : job.point.stepsUntil? count work = some left) :
    asked.awaits = false := by
  rw [next] at hnext
  cases heq : job.point with
  | enter | announce | checkSource | checkEngine =>
      rw [heq] at hnext
      cases hnext
      rfl
  | _ =>
      rw [heq] at hleft
      cases hleft

end Job

namespace Point.Finds

variable {files : FileTree} {mix : Mix Float} {point : Point}

theorem not_hasFound {isAvailable : Bool} {isRenderable : Prop} (h : point.Finds files mix) :
    ¬ point.HasFound isAvailable isRenderable := by
  induction point with
  | enter phase => exact fun hphase => hphase h.1
  | announce event next ih => exact ih h
  | checkSource | checkEngine => exact not_false
  | _ => exact h.elim

theorem isOver (h : point.Finds files mix) : point.isOver = false := by
  induction point with
  | announce event next ih => exact ih h
  | close | ended => exact h.elim
  | _ => rfl

theorem runsEngine (h : point.Finds files mix) : point.runsEngine = false := by
  induction point with
  | announce event next ih => exact ih h
  | engine => exact h.elim
  | _ => rfl

end Point.Finds

/-- What is measured of the tracks of a project has no part in whether they make a graph. -/
theorem ExportRequest.isRenderable_measured {request : ExportRequest} (h : request.mix.project.IsRenderable)
    (found : List (Measurement Float)) : (request.measured found).mix.project.IsRenderable where
  tracks := by
    rw [← List.length_pos_iff]
    change 0 < (request.measuredTracks found).length
    rw [length_measuredTracks]
    exact List.length_pos_iff.mpr h.tracks
  word := by
    change (request.measuredTracks found).length ≤ _
    rw [length_measuredTracks]
    exact h.word
  rates := by
    intro track htrack
    obtain ⟨index, hindex, rfl⟩ := List.mem_mapIdx.mp htrack
    exact fun rate hrate => h.rates _ (List.getElem_mem hindex) rate hrate

namespace Service

variable {service after started between final : Service} {id : Nat} {task : Task} {move : Move}
  {moves earlier : List Move} {request : ExportRequest}

def Announces (service : Service) (id : Nat) (phase : Phase) : Prop :=
  ∃ event ∈ service.eventsOf id, event.phase = phase

def hasEngine (service : Service) : Bool := service.engine.isAvailable service.files

/-- How it stands with a job whose sources are there, some moves after its start. When its engine is
there as well, it comes nearer to its work. -/
structure Nears (request : ExportRequest) (started : Service) (id : Nat) (moves : List Move) (service : Service)
    (task : Task) : Prop where
  point : task.job.point.Finds started.files task.job.request.mix ∧ service.files = started.files ∨
    task.job.point.HasFound started.hasEngine request.mix.project.IsRenderable
  engine : service.engine = started.engine
  stopped : task.isCancelled = true → started.Made moves (Stops id)
  course : started.hasEngine = true → started.Made moves (Stops id) ∨
    service.Announces id request.settings.firstWork ∨
    ∃ left, task.job.point.stepsUntil? request.mix.project.tracks.length request.settings.firstWork = some left ∧
      moves.countP (Move.isStepOf id) + left ≤ request.mix.project.tracks.length + 5

theorem Announces.of_eventsOf {told : List Event} {phase : Phase} (h : service.Announces id phase)
    (hevents : after.eventsOf id = service.eventsOf id ++ told) : after.Announces id phase := by
  obtain ⟨event, hevent, hphase⟩ := h
  refine ⟨event, ?_, hphase⟩
  rw [hevents]
  exact List.mem_append_left told hevent

theorem hasEngine_of_start (h : service.start request = .ok (id, started)) : started.hasEngine = service.hasEngine := by
  have hmove := moves_of_move? (start_eq_ok h).2.2.1
  rw [hasEngine, hasEngine, hmove.setup_eq.1, files_of_start h]

theorem findsEngine_of_answer {asked : Request} {answer : asked.Answer}
    (h : service.answer id task asked = some (answer, after)) : asked.FindsEngine service.hasEngine answer := by
  cases asked with
  | engineAvailable =>
      cases h
      rfl
  | _ => trivial

/-- A move that is no step of the job keeps all this. -/
theorem Nears.rest {task' : Task} {told : List Event} (h : Nears request started id moves service task)
    (hjob : task'.job = task.job) (hother : move.isStepOf id = false)
    (hevents : after.eventsOf id = service.eventsOf id ++ told) (hengine : after.engine = service.engine)
    (hfiles : task.job.point.Finds started.files task.job.request.mix → after.files = started.files)
    (hstopped : task'.isCancelled = true → started.Made (moves ++ [move]) (Stops id)) :
    Nears request started id (moves ++ [move]) after task' where
  point := by
    rw [hjob]
    exact h.point.imp_left fun ⟨hpoint, _⟩ => ⟨hpoint, hfiles hpoint⟩
  engine := hengine.trans h.engine
  stopped := hstopped
  course := by
    rw [hjob, List.countP_append, List.countP_singleton, hother]
    intro havailable
    exact (h.course havailable).imp (fun hmade => hmade.append _) (.imp_left fun htold => htold.of_eventsOf hevents)

/-- What the job is answered while it looks is how it was when it was started. -/
theorem Nears.looks {asked : Request} {answer : asked.Answer} (h : Nears request started id moves service task)
    (hanswer : service.answer id task asked = some (answer, between)) :
    task.job.point.Finds started.files task.job.request.mix ∧ asked.Finds started.files answer ∧
        asked.FindsEngine started.hasEngine answer ∨
      task.job.point.HasFound started.hasEngine request.mix.project.IsRenderable := by
  refine h.point.imp_left fun ⟨hpoint, hsame⟩ => ⟨hpoint, ?_, ?_⟩
  · rw [← hsame]
    exact finds_of_answer hanswer
  · have hengine : started.hasEngine = service.hasEngine := by rw [hasEngine, hasEngine, h.engine, hsame]
    rw [hengine]
    exact findsEngine_of_answer hanswer

/-- A step of the job keeps all this, and is one of those that were left. -/
theorem Nears.gone {asked : Request} {answer : asked.Answer} {task' : Task} {found : List (Measurement Float)}
    (h : Nears request started id moves service task) (hrequest : task.job.request = request.measured found)
    (hgoes : Job.Goes task.isCancelled task.job asked answer task'.job) (hflag : task'.isCancelled = task.isCancelled)
    (hanswer : service.answer id task asked = some (answer, between))
    (hevents : after.eventsOf id = service.eventsOf id ++ asked.announced) (hengine : after.engine = service.engine)
    (hfiles : task.job.point.Finds started.files task.job.request.mix → after.files = started.files) :
    Nears request started id (moves ++ [.job id]) after task' where
  point := by
    rcases h.looks hanswer with ⟨hpoint, hfinds, hfound⟩ | hfound
    · rcases hgoes.finds hpoint hfinds hfound with ⟨hsame, hpoint'⟩ | hfound'
      · rw [hsame]
        exact .inl ⟨hpoint', hfiles hpoint⟩
      · exact .inr hfound'
    · refine .inr (hgoes.hasFound (fun hrenderable => ?_) hfound)
      rw [hrequest]
      exact ExportRequest.isRenderable_measured hrenderable found
  engine := hengine.trans h.engine
  stopped := by
    rw [hflag]
    exact fun hcancelled => (h.stopped hcancelled).append _
  course := by
    intro havailable
    have hlooks := h.looks hanswer
    rw [havailable] at hlooks
    have hcount : task.job.tracks.length = request.mix.project.tracks.length := by
      rw [Job.tracks, hrequest]
      exact ExportRequest.length_measuredTracks
    have hwork : task.job.request.settings.firstWork = request.settings.firstWork := by
      rw [hrequest]
      rfl
    rcases h.course havailable with hmade | htold | ⟨left, hleft, hbound⟩
    · exact .inl (hmade.append _)
    · exact .inr (.inl (htold.of_eventsOf hevents))
    · rw [← hcount, ← hwork] at hleft
      have hnears := hgoes.nears hlooks hleft
      rw [hcount, hwork] at hnears
      rcases hnears with hcancelled | ⟨event, hevent, hphase⟩ | ⟨left', hleft', hlt⟩
      · exact .inl ((h.stopped hcancelled).append _)
      · refine .inr (.inl ⟨event, ?_, hphase⟩)
        rw [hevents]
        exact List.mem_append_right _ hevent
      · refine .inr (.inr ⟨left', hleft', ?_⟩)
        rw [List.countP_append, List.countP_singleton, Move.isStepOf, if_pos (beq_self_eq_true id)]
        omega

theorem Nears.moved {found : List (Measurement Float)} (h : Nears request started id moves service task)
    (hrequest : task.job.request = request.measured found) (hearlier : started.moves? moves = some service)
    (hmove : service.move? move = some after) (hspeaks : service.Speaks) (horderly : service.Orderly)
    (hexclusive : service.Exclusive) (htask : service.tasks[id]? = some task) :
    ∃ task', after.tasks[id]? = some task' ∧ Nears request started id (moves ++ [move]) after task' := by
  have hmoves := moves_of_move? hmove
  obtain ⟨told, task', htask', hevolves, hevents⟩ := hmoves.evolves hspeaks htask
  have hengine := hmoves.setup_eq.1
  have hfiles : task.job.point.Finds started.files task.job.request.mix → after.files = started.files := by
    intro hpoint
    have hsame := (h.point.resolve_right hpoint.not_hasFound).2
    rw [hmoves.files_eq horderly hexclusive htask hpoint.isOver hpoint.runsEngine
      fun hgoes => hgoes.isReadOnly_of_finds hpoint, hsame]
  refine ⟨task', htask', ?_⟩
  cases hevolves with
  | rest hface hother =>
      have hjob : task'.job = task.job := congrArg Prod.fst hface
      have hflag : task'.isCancelled = task.isCancelled := congrArg Prod.snd hface
      refine h.rest hjob hother hevents hengine hfiles ?_
      rw [hflag]
      exact fun hcancelled => (h.stopped hcancelled).append _
  | cancel hcancel hslot hjob =>
      subst hcancel
      refine h.rest hjob rfl hevents hengine hfiles fun _ => ?_
      exact ⟨moves, .cancel, [], service, rfl, hearlier, rfl, hslot, by rw [cancel_of_slot hslot]⟩
  | go hstep hgoes hflag hanswer =>
      subst hstep
      obtain ⟨between, hanswer⟩ := hanswer
      exact h.gone hrequest hgoes hflag hanswer hevents hengine hfiles

/-- A job comes to its work: as long as it has not announced that and was not asked to stop, it does
not wait and has made few steps only. When it fails, that is in its work with the engine: nothing is
missing, and its mix makes a graph. -/
structure Passes (request : ExportRequest) (started : Service) (id : Nat) (moves : List Move) (final : Service) :
    Prop where
  passed : started.Made moves (Stops id) ∨ final.Announces id request.settings.firstWork ∨
    (final.stepJob? id).isSome = true ∧ moves.countP (Move.isStepOf id) < request.mix.project.tracks.length + 5
  sources : ∀ titles, final.outcome? id ≠ some (.failed (Failure.validation titles).message)
  engine : ∀ reason, final.outcome? id ≠ some (.failed (Failure.unsupported reason).message)
  graph : ∀ reason, final.outcome? id ≠ some (.failed (Failure.graphBuild reason).message)

section

variable {initial : Service} {before : List Move} (hunused : initial.IsUnused)
  (hbefore : initial.moves? before = some service) (hstart : service.start request = .ok (id, started))
  (hfound : service.files.missingSources request.mix = []) (hmoves : started.moves? moves = some final)

include hunused hbefore hstart hfound hmoves

theorem nears_of_moves? : ∃ task, final.tasks[id]? = some task ∧ Nears request started id moves final task := by
  rw [← files_of_start hstart] at hfound
  refine history_of_start hbefore hstart ?_ ?_ hmoves
  · refine ⟨.inl ⟨⟨rfl, hfound⟩, rfl⟩, rfl, nofun, fun _ => .inr (.inr ⟨_, rfl, ?_⟩)⟩
    exact Nat.le_of_eq (Nat.zero_add _)
  · intro earlier move between after task hearlier hreached hmove htask hnears
    obtain ⟨task', htask', found, hrequest, -⟩ := pursues_of_moves? hunused hbefore hstart hearlier
    cases htask.symm.trans htask'
    have horderly := orderly_of_moves? hunused.toIsFresh hreached
    exact hnears.moved hrequest hearlier hmove (speaks_of_moves? hunused.toIsFresh hreached) horderly
      (horderly.exclusive (vacates_of_moves? hunused.toIsFresh hreached)) htask

/-- A job whose sources are there fails only with an excuse. -/
theorem isExcused_of_moves? {outcome : Outcome} (hended : final.outcome? id = some outcome) :
    outcome.IsExcused service.hasEngine request.mix.project.IsRenderable := by
  obtain ⟨task, htask, hnears⟩ := nears_of_moves? hunused hbefore hstart hfound hmoves
  have hpoint := hnears.point
  rw [outcome?_eq_some hended htask] at hpoint
  rw [← hasEngine_of_start hstart]
  exact hpoint.resolve_left fun hfinds => hfinds.1

/-- Such a job says only what it has an excuse for. -/
theorem isExcused_of_failed {failure : Failure} (hkind : failure.letter?.isSome = true)
    (hended : final.outcome? id = some (.failed failure.message)) :
    failure.IsExcused service.hasEngine request.mix.project.IsRenderable := by
  obtain ⟨other, hother, hsame⟩ := isExcused_of_moves? hunused hbefore hstart hfound hmoves hended
  exact hother.of_message hkind hsame

/-- So it goes with a job whose sources and engine are there when it is started, and whose mix makes
a graph. -/
theorem passes_of_moves? (havailable : service.hasEngine = true) (hrenderable : request.mix.project.IsRenderable) :
    Passes request started id moves final := by
  obtain ⟨task, htask, hnears⟩ := nears_of_moves? hunused hbefore hstart hfound hmoves
  have hexcused : ∀ {failure : Failure}, failure.letter?.isSome = true →
      final.outcome? id = some (.failed failure.message) →
      failure.IsExcused service.hasEngine request.mix.project.IsRenderable := fun hkind hended =>
    isExcused_of_failed hunused hbefore hstart hfound hmoves hkind hended
  refine ⟨?_, fun _ hended => hexcused rfl hended, fun _ hended => ?_, fun _ hended => hexcused rfl hended hrenderable⟩
  · rw [← hasEngine_of_start hstart] at havailable
    refine (hnears.course havailable).imp_right (.imp_right ?_)
    rintro ⟨left, hleft, hbound⟩
    have hpositive := Point.stepsUntil?_pos hleft
    refine ⟨stepJob?_isSome htask (fun hnext => .inr (Job.awaits_of_stepsUntil? hnext hleft)) ?_, by omega⟩
    cases hended : final.outcome? id with
    | none => rfl
    | some outcome =>
        rw [outcome?_eq_some hended htask] at hleft
        cases hleft
  · have hmissing : service.hasEngine = false := hexcused rfl hended
    rw [havailable] at hmissing
    cases hmissing

end

end Service

end Segue
