import Segue.Project.Store
import Segue.Proofs.Job.Engines
import Segue.Proofs.Job.Release

/-!
Jobs whose sources are not all there. Main statement: such a job runs no engine and never waits; it
ends after a known number of steps, with a failure that names the titles of the tracks without a
source in their order, unless it was asked to stop before it looked for them.
-/

namespace Segue

/-- The titles of the tracks among some whose sources are not there. -/
def FileTree.missingOf (files : FileTree) (mix : Mix Float) (tracks : List (Track Float)) : List String :=
  (tracks.filter fun track => !files.contains (mix.sourcePath track)).map Track.title

/-- A job at a point is about to find that sources are missing, or has found it, or has been
cancelled before. -/
def Point.Validates (files : FileTree) (mix : Mix Float) : Point → Prop
  | .announce _ next => next.isCheck = false ∧ next.Validates files mix
  | .enter phase => phase = .validating
  | .checkSource track rest missing => missing ++ files.missingOf mix (track :: rest) = files.missingSources mix
  | .removeOutput => True
  | .release outcome | .close outcome | .ended outcome =>
    outcome = .cancelled ∨ outcome = .failed (Failure.validation (files.missingSources mix)).message
  | _ => False

/-- The most steps that are left to such a job of some number of tracks. -/
def Point.stepsToFail (count : Nat) : Point → Nat
  | .enter _ => count + 8
  | .announce _ next => next.stepsToFail count + 1
  | point => point.stepsLeft

/-- What is answered about sources is how the files are. -/
def Request.Finds (files : FileTree) : (request : Request) → request.Answer → Prop
  | .sourceExists path, found => found = files.contains path
  | _, _ => True

namespace Job

variable {job job' : Job} {isCancelled : Bool} {asked : Request} {answer : asked.Answer} {files : FileTree}

theorem missingOf_cons (files : FileTree) (mix : Mix Float) (track : Track Float) (rest : List (Track Float))
    (missing : List String) :
    missing ++ files.missingOf mix (track :: rest) =
      (if files.contains (mix.sourcePath track) then missing else missing ++ [track.title]) ++
        files.missingOf mix rest := by
  unfold FileTree.missingOf
  cases hfound : files.contains (mix.sourcePath track) <;> simp [hfound]

theorem validates_checkSources {tracks : List (Track Float)} {missing : List String}
    (hsome : files.missingSources job.request.mix ≠ [])
    (hmissing : missing ++ files.missingOf job.request.mix tracks = files.missingSources job.request.mix) :
    (job.checkSources tracks missing).point.Validates files job.request.mix := by
  unfold checkSources
  split
  · exact hmissing
  · have hall : missing = files.missingSources job.request.mix := by simpa [FileTree.missingOf] using hmissing
    rw [if_neg (by simpa [hall] using hsome), hall]
    exact .inr rfl

theorem stepsToFail_checkSources (count : Nat) (tracks : List (Track Float)) (missing : List String) :
    (job.checkSources tracks missing).point.stepsToFail count ≤ tracks.length + 6 := by
  unfold checkSources
  split
  · exact Nat.le_of_eq (Nat.add_right_comm _ 1 6).symm
  · split <;> simp [fail, goTo, Point.stepsToFail, Point.stepsLeft]

theorem request_checkSources (tracks : List (Track Float)) (missing : List String) :
    (job.checkSources tracks missing).request = job.request := by
  unfold checkSources
  split
  · rfl
  · split <;> rfl

theorem isCheck_checkSources (tracks : List (Track Float)) (missing : List String) :
    (job.checkSources tracks missing).point.isCheck = false := by
  unfold checkSources
  split
  · rfl
  · split <;> rfl

/-- What one step of a job makes of it when its sources are not all there. -/
structure FailsOn (files : FileTree) (isCancelled : Bool) (job job' : Job) : Prop where
  same : job'.request = job.request
  point : job'.point.Validates files job.request.mix
  beyond : job'.point.isCheck = false
  steps : job'.point.stepsToFail job.tracks.length < job.point.stepsToFail job.tracks.length
  withdrawn : job'.point.fate? = some .cancelled →
    job.point.fate? = some .cancelled ∨ job.point = .enter .validating ∧ isCancelled = true

theorem Goes.failsOn (h : Goes isCancelled job asked answer job') (hsome : files.missingSources job.request.mix ≠ [])
    (hpoint : job.point.Validates files job.request.mix) (hfinds : job.point.fate? = none → asked.Finds files answer) :
    FailsOn files isCancelled job job' := by
  cases h with
  | halt hcheck hcancelled =>
      rcases Point.check_cases hcheck with ⟨_, heq⟩ | ⟨_, heq⟩ | ⟨_, heq⟩ | ⟨_, _, heq⟩ | ⟨_, _, _, heq⟩ <;>
        rw [heq] at hpoint
      · cases (hpoint : _ = _)
        refine ⟨rfl, trivial, rfl, ?_, fun _ => .inr ⟨heq, hcancelled⟩⟩
        rw [heq]
        exact Nat.lt_of_lt_of_le (by decide : 4 < 8) (Nat.le_add_left 8 _)
      all_goals exact hpoint.elim
  | @enter phase heq =>
      rw [heq] at hpoint
      cases (hpoint : _ = _)
      refine ⟨rfl, ⟨isCheck_checkSources _ _, ?_⟩, rfl, ?_, fun hfate => ?_⟩
      · have hmissing : [] ++ files.missingOf job.request.mix job.tracks = files.missingSources job.request.mix := rfl
        exact validates_checkSources hsome hmissing
      · rw [heq]
        exact Nat.succ_lt_succ (Nat.lt_succ_of_le (stepsToFail_checkSources _ job.tracks []))
      · exact ((isOpen_checkSources job job.tracks []).fate?_ne_cancelled hfate).elim
  | announce heq =>
      rw [heq] at hpoint
      refine ⟨rfl, hpoint.2, hpoint.1, ?_, fun hfate => .inl ?_⟩
      · rw [heq]
        exact Nat.lt_succ_self _
      · rw [heq]
        exact hfate
  | @checkSource track rest missing heq found =>
      rw [heq] at hpoint hfinds
      cases (hfinds rfl : found = _)
      refine ⟨request_checkSources _ _, ?_, isCheck_checkSources _ _, ?_, fun hfate => ?_⟩
      · have hmissing := (missingOf_cons files job.request.mix track rest missing).symm.trans hpoint
        exact validates_checkSources hsome hmissing
      · rw [heq]
        exact Nat.lt_succ_of_le (stepsToFail_checkSources _ rest _)
      · exact ((isOpen_checkSources job _ _).fate?_ne_cancelled hfate).elim
  | removed heq =>
      refine ⟨rfl, .inl rfl, rfl, ?_, fun _ => .inl (by rw [heq]; rfl)⟩
      rw [heq]
      exact Nat.lt_succ_self 3
  | released heq =>
      rw [heq] at hpoint
      refine ⟨rfl, ⟨rfl, hpoint⟩, rfl, ?_, fun hfate => .inl ?_⟩
      · rw [heq]
        exact Nat.lt_succ_self 2
      · rw [heq]
        exact hfate
  | closed heq =>
      rw [heq] at hpoint
      refine ⟨rfl, hpoint, rfl, ?_, fun hfate => .inl ?_⟩
      · rw [heq]
        exact Nat.lt_succ_self 0
      · rw [heq]
        exact hfate
  | _ =>
      rw [‹job.point = _›] at hpoint
      exact hpoint.elim

/-- Such a job starts no engine. -/
theorem Goes.started_of_validates (h : Goes isCancelled job asked answer job')
    (hpoint : job.point.Validates files job.request.mix) : asked.started answer = [] := by
  cases h with
  | started heq =>
      rw [heq] at hpoint
      exact hpoint.elim
  | _ => rfl

theorem Goes.isReadOnly_of_validates (h : Goes isCancelled job asked answer job')
    (hpoint : job.point.Validates files job.request.mix) (hfate : job.point.fate? = none) :
    asked.isReadOnly = true := by
  cases h with
  | directoryMade heq | directoryRefused heq | sheetWritten heq | settingsPlaceMade heq | settingsPlaceRefused heq
  | settingsWritten heq =>
      rw [heq] at hpoint
      exact hpoint.elim
  | removed heq =>
      rw [heq] at hfate
      cases hfate
  | _ => rfl

theorem awaits_of_validates {resume : asked.Answer → Job} (hnext : job.next = .ask asked resume)
    (hpoint : job.point.Validates files job.request.mix) : asked.awaits = false := by
  rw [next] at hnext
  cases heq : job.point with
  | engine use tail stage =>
      rw [heq] at hpoint
      exact hpoint.elim
  | ended =>
      rw [heq] at hnext
      cases hnext
  | _ =>
      rw [heq] at hnext
      cases hnext
      rfl

end Job

theorem Point.Validates.runsEngine {files : FileTree} {mix : Mix Float} {point : Point}
    (h : point.Validates files mix) : point.runsEngine = false := by
  induction point with
  | announce event next ih => exact ih h.2
  | engine => exact h.elim
  | _ => rfl

theorem Point.not_isOver_of_fate? {point : Point} (h : point.fate? = none) : point.isOver = false := by
  induction point with
  | announce event next ih => exact ih h
  | close | ended => cases h
  | _ => rfl

namespace Service

variable {service after started between final : Service} {id : Nat} {task : Task} {move : Move}
  {moves earlier : List Move} {request : ExportRequest} {scripts : List EngineScript}

/-- A job is asked to stop before it has looked for anything. -/
def StopsEarly (id : Nat) (service : Service) (move : Move) : Prop :=
  Stops id service move ∧ ∃ task, service.tasks[id]? = some task ∧ task.job.point = .enter .validating

/-- How it stands with a job whose sources are not all there, some moves after its start. -/
structure Fails (scripts : List EngineScript) (request : ExportRequest) (started : Service) (id : Nat)
    (moves : List Move) (service : Service) (task : Task) : Prop where
  same : task.job.request = request
  point : task.job.point.Validates started.files request.mix
  files : task.job.point.fate? = none → service.files = started.files
  runs : service.runsOf scripts id = []
  early : task.isCancelled = true → task.job.point = .enter .validating → started.Made moves (StopsEarly id)
  withdrawn : task.job.point.fate? = some .cancelled → started.Made moves (StopsEarly id)
  steps : moves.countP (Move.isStepOf id) + task.job.point.stepsToFail request.mix.project.tracks.length ≤
    request.mix.project.tracks.length + 8

theorem finds_of_answer {asked : Request} {answer : asked.Answer}
    (h : service.answer id task asked = some (answer, after)) : asked.Finds service.files answer := by
  cases asked with
  | sourceExists path =>
      cases h
      rfl
  | _ => trivial

/-- A move that is no step of the job keeps all this, as long as it was early that the job was asked
to stop. -/
theorem Fails.rest {task' : Task} (h : Fails scripts request started id moves service task)
    (hjob : task'.job = task.job) (hother : move.isStepOf id = false) (hruns : after.runsOf scripts id = [])
    (hfiles : task.job.point.fate? = none → after.files = started.files)
    (hearly : task'.isCancelled = true → task'.job.point = .enter .validating →
      started.Made (moves ++ [move]) (StopsEarly id)) :
    Fails scripts request started id (moves ++ [move]) after task' where
  same := by rw [hjob, h.same]
  point := by rw [hjob]; exact h.point
  files := by rw [hjob]; exact hfiles
  runs := hruns
  early := hearly
  withdrawn := by rw [hjob]; exact fun hfate => (h.withdrawn hfate).append _
  steps := by
    rw [hjob, List.countP_append, List.countP_singleton, hother]
    exact h.steps

/-- A step of the job keeps all this, and is one of those that were left. -/
theorem Fails.gone {asked : Request} {answer : asked.Answer} {task' : Task}
    (h : Fails scripts request started id moves service task)
    (hfails : Job.FailsOn started.files task.isCancelled task.job task'.job)
    (hgoes : Job.Goes task.isCancelled task.job asked answer task'.job) (hruns : after.runsOf scripts id = [])
    (hfiles : task.job.point.fate? = none → after.files = started.files) :
    Fails scripts request started id (moves ++ [.job id]) after task' where
  same := hfails.same.trans h.same
  point := by
    rw [← h.same]
    exact hfails.point
  files := by
    intro hfate'
    cases hfate : task.job.point.fate? with
    | none => exact hfiles hfate
    | some phase => cases hfate'.symm.trans (hgoes.fate?_eq hfate)
  runs := hruns
  early := by
    intro _ hbefore
    have hbeyond := hfails.beyond
    rw [hbefore] at hbeyond
    cases hbeyond
  withdrawn := by
    intro hfate'
    rcases hfails.withdrawn hfate' with hfate | ⟨hbefore, hcancelled⟩
    · exact (h.withdrawn hfate).append _
    · exact (h.early hcancelled hbefore).append _
  steps := by
    have hsteps := hfails.steps
    have hbound := h.steps
    unfold Job.tracks at hsteps
    rw [h.same] at hsteps
    rw [List.countP_append, List.countP_singleton, Move.isStepOf, if_pos (beq_self_eq_true id)]
    omega

theorem Fails.moved (h : Fails scripts request started id moves service task)
    (hsome : started.files.missingSources request.mix ≠ []) (hearlier : started.moves? moves = some service)
    (hmove : service.move? move = some after) (hspeaks : service.Speaks) (horderly : service.Orderly)
    (hexclusive : service.Exclusive) (hserved : service.IsServed scripts) (htask : service.tasks[id]? = some task) :
    ∃ task', after.tasks[id]? = some task' ∧ Fails scripts request started id (moves ++ [move]) after task' := by
  have hmoves := moves_of_move? hmove
  obtain ⟨told, task', htask', hevolves, -⟩ := hmoves.evolves hspeaks htask
  obtain ⟨runs, task'', htask'', hdrives, hruns⟩ := hmoves.drives hserved htask
  cases htask'.symm.trans htask''
  have hpoint := h.point
  rw [← h.same] at hpoint hsome
  have hnone : after.runsOf scripts id = [] := by
    rw [hruns, h.runs]
    cases hdrives with
    | rest => rfl
    | go _ hgoes =>
        rw [hgoes.started_of_validates hpoint]
        rfl
  have hfiles : task.job.point.fate? = none → after.files = started.files := by
    intro hfate
    rw [hmoves.files_eq horderly hexclusive htask (Point.not_isOver_of_fate? hfate) hpoint.runsEngine
      fun hgoes => hgoes.isReadOnly_of_validates hpoint hfate, h.files hfate]
  refine ⟨task', htask', ?_⟩
  cases hevolves with
  | rest hface hother =>
      have hjob : task'.job = task.job := congrArg Prod.fst hface
      have hflag : task'.isCancelled = task.isCancelled := congrArg Prod.snd hface
      refine h.rest hjob hother hnone hfiles ?_
      rw [hflag, hjob]
      exact fun hcancelled hbefore => (h.early hcancelled hbefore).append _
  | cancel hcancel hslot hjob hflag =>
      subst hcancel
      refine h.rest hjob rfl hnone hfiles ?_
      rw [hjob]
      intro _ hbefore
      exact ⟨moves, .cancel, [], service, rfl, hearlier, ⟨rfl, hslot, by rw [cancel_of_slot hslot]⟩, task, htask,
        hbefore⟩
  | go hstep hgoes hflag hanswer =>
      subst hstep
      obtain ⟨between, hanswer⟩ := hanswer
      have hfails := hgoes.failsOn hsome hpoint fun hfate => by
        rw [← h.files hfate]
        exact finds_of_answer hanswer
      exact h.gone hfails hgoes hnone hfiles

/-- A job runs no engine and never waits, and its steps to its end are bounded: it fails as its
sources are missing, unless it was asked to stop before it looked for them. -/
structure Misses (scripts : List EngineScript) (titles : List String) (bound : Nat) (started : Service) (id : Nat)
    (moves : List Move) (final : Service) : Prop where
  unrun : final.runsOf scripts id = []
  outcome : ∀ outcome, final.outcome? id = some outcome →
    outcome = .failed (Failure.validation titles).message ∨ outcome = .cancelled ∧ started.Made moves (StopsEarly id)
  ready : final.outcome? id = none → (final.stepJob? id).isSome = true
  steps : moves.countP (Move.isStepOf id) ≤ bound

section

variable {initial : Service} {before moves : List Move} (hunused : initial.IsUnused)
  (hbefore : initial.moves? before = some service) (hstart : service.start request = .ok (id, started))
  (hsome : service.files.missingSources request.mix ≠ []) (hmoves : started.moves? moves = some final)

include hunused hbefore hstart hsome hmoves

theorem fails_of_moves? :
    ∃ task, final.tasks[id]? = some task ∧ Fails initial.scripts request started id moves final task := by
  rw [← files_of_start hstart] at hsome
  refine history_of_start hbefore hstart ?_ ?_ hmoves
  · refine ⟨rfl, rfl, fun _ => rfl, runsOf_of_start hunused hbefore hstart, nofun, nofun, ?_⟩
    exact Nat.le_of_eq (Nat.zero_add _)
  · intro earlier move between after task hearlier hreached hmove htask hfails
    have horderly := orderly_of_moves? hunused.toIsFresh hreached
    exact hfails.moved hsome hearlier hmove (speaks_of_moves? hunused.toIsFresh hreached) horderly
      (horderly.exclusive (vacates_of_moves? hunused.toIsFresh hreached)) (isServed_of_moves? hunused hreached) htask

/-- So it goes with a job whose sources are not all there when it is started. -/
theorem misses_of_moves? :
    Misses initial.scripts (service.files.missingSources request.mix) (request.mix.project.tracks.length + 8) started id
      moves final := by
  obtain ⟨task, htask, hfails⟩ := fails_of_moves? hunused hbefore hstart hsome hmoves
  refine ⟨hfails.runs, ?_, ?_, Nat.le_trans (Nat.le_add_right _ _) hfails.steps⟩
  · intro outcome hended
    have hpoint := outcome?_eq_some hended htask
    have hvalidates := hfails.point
    rw [hpoint, files_of_start hstart] at hvalidates
    rcases hvalidates with rfl | rfl
    · exact .inr ⟨rfl, hfails.withdrawn (by rw [hpoint]; rfl)⟩
    · exact .inl rfl
  · intro hgoing
    refine stepJob?_isSome htask (fun hnext => .inr ?_) hgoing
    exact Job.awaits_of_validates hnext (by rw [hfails.same]; exact hfails.point)

end

end Service

end Segue
