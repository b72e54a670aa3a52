import Segue.Proofs.Files.Writing
import Segue.Proofs.Job.Untouched

/-!
Where a job writes to. Main statement: whatever a job does, and its engine, leaves the file of a
path that it does not write to as it was, unless it is the settings that are written there.
-/

namespace Segue

/-- What the engine is told to write to when it only measures. -/
def measuringTarget : Path := ⟨"-"⟩

namespace ExportRequest

/-- What a job writes to apart from its settings: its output, its cue sheet if there is to be one,
and what its engine is told to write to when it measures, if it does. -/
def targets (request : ExportRequest) : List Path :=
  request.output :: (if request.settings.writesCueSheet then [CueSheet.pathBeside request.output] else []) ++
    if request.settings.normalize then [measuringTarget] else []

/-- A path does not lead to where a job writes. -/
def Avoids (request : ExportRequest) (path : Path) : Prop := ∀ target ∈ request.targets, target.place ≠ path.place

instance (request : ExportRequest) (path : Path) : Decidable (request.Avoids path) :=
  List.decidableBAll (fun target : Path => target.place ≠ path.place) request.targets

variable {request : ExportRequest}

theorem output_mem_targets : request.output ∈ request.targets := List.mem_cons_self

theorem pathBeside_mem_targets (h : request.settings.writesCueSheet = true) :
    CueSheet.pathBeside request.output ∈ request.targets := by
  rw [targets, if_pos h]
  exact List.mem_cons_of_mem _ List.mem_cons_self

theorem measuringTarget_mem_targets (h : request.settings.normalize = true) : measuringTarget ∈ request.targets := by
  rw [targets, if_pos h]
  exact List.mem_append_right _ List.mem_cons_self

theorem targets_congr {request' : ExportRequest} (hsettings : request'.settings = request.settings)
    (houtput : request'.output = request.output) : request'.targets = request.targets := by
  rw [targets, targets, hsettings, houtput]

end ExportRequest

def EngineUse.target? : EngineUse → Option Path
  | .measuring .. => some measuringTarget
  | .encoding arguments _ _ => arguments.getLast?.map Path.mk

/-- A job at a point writes to nothing but its targets. -/
def Point.AimsAt (request : ExportRequest) : Point → Prop
  | .announce _ next => next.AimsAt request
  | .enter .analyzing | .beforeMeasuring _ | .afterMeasuring _ => measuringTarget ∈ request.targets
  | .makeDirectory _ use | .engine use _ _ => ∀ path, use.target? = some path → path ∈ request.targets
  | .writeSheet => CueSheet.pathBeside request.output ∈ request.targets
  | _ => True

theorem Point.AimsAt.congr {request request' : ExportRequest} (hsettings : request'.settings = request.settings)
    (houtput : request'.output = request.output) {point : Point} (h : point.AimsAt request) :
    point.AimsAt request' := by
  have htargets := ExportRequest.targets_congr hsettings houtput
  induction point with
  | announce event next ih => exact ih h
  | enter phase =>
      cases phase with
      | analyzing =>
          change measuringTarget ∈ request'.targets
          rw [htargets]
          exact h
      | _ => trivial
  | beforeMeasuring | afterMeasuring =>
      change measuringTarget ∈ request'.targets
      rw [htargets]
      exact h
  | makeDirectory _ use | engine use =>
      intro path hpath
      rw [htargets]
      exact h path hpath
  | writeSheet =>
      change CueSheet.pathBeside request'.output ∈ request'.targets
      rw [htargets, houtput]
      exact h
  | _ => trivial

theorem Mix.getLast?_plan {mix : Mix Float} {settings : ExportSettings} {output : Path} {plan : RenderPlan}
    (h : mix.plan settings output = .ok plan) : plan.arguments.getLast? = some output.text := by
  obtain ⟨graph, -, h⟩ := bind_eq_ok.mp h
  cases h
  change (encodingArguments _ _ _ _ _ _).getLast? = _
  rw [encodingArguments, List.getLast?_append]
  rfl

namespace Job

variable {request : ExportRequest} {job job' : Job} {isCancelled : Bool} {asked : Request} {answer : asked.Answer}

/-- The engine is told to write to nothing else by its arguments. -/
theorem getLast?_argumentsOf {use : EngineUse} {path : Path}
    (h : (job.argumentsOf use).getLast?.map Path.mk = some path) : use.target? = some path := by
  cases use with
  | encoding => exact h
  | measuring index heard =>
      unfold argumentsOf at h
      dsimp only at h
      split at h
      · exact h
      · cases h

theorem aimsAt_checkSources (tracks : List (Track Float)) (missing : List String) :
    (job.checkSources tracks missing).point.AimsAt request := by
  unfold checkSources
  split
  · trivial
  · split <;> trivial

theorem aimsAt_measureFrom (h : measuringTarget ∈ request.targets) (index : Nat) :
    (job.measureFrom index).point.AimsAt request := by
  unfold measureFrom
  dsimp only [goTo]
  split
  · exact h
  · trivial

theorem aimsAt_prepare : job.prepare.point.AimsAt job.request := by
  unfold prepare
  dsimp only
  split
  · trivial
  · rename_i plan hplan
    have htarget : ∀ path, (EngineUse.encoding plan.arguments plan.duration job.percent).target? = some path →
        path ∈ job.request.targets := by
      intro path hpath
      rw [EngineUse.target?, Mix.getLast?_plan hplan] at hpath
      cases hpath
      exact ExportRequest.output_mem_targets
    split
    · split
      · exact htarget
      · exact htarget
    · exact htarget

theorem aimsAt_enter {phase : Phase} (hpoint : job.point = .enter phase) (h : job.point.AimsAt job.request) :
    (job.enter phase).point.AimsAt job.request := by
  cases phase with
  | validating => exact aimsAt_checkSources _ _
  | analyzing =>
      rw [hpoint] at h
      exact aimsAt_measureFrom h 0
  | rendering =>
      exact @aimsAt_prepare { job with phase := .rendering, percent := Progress.measuringShare }
  | _ => exact h

theorem aimsAt_hear {use : EngineUse} (h : ∀ path, use.target? = some path → path ∈ request.targets)
    (tail : DiagnosticTail) (piece : List Char) (elapsed : Float) :
    (job.hear use tail piece elapsed).point.AimsAt request := by
  unfold hear
  cases use with
  | measuring => exact h
  | encoding =>
      dsimp only
      split
      · exact h
      · split
        · exact h
        · exact h

theorem aimsAt_persist : job.persist.point.AimsAt request := by
  unfold persist
  split <;> trivial

theorem aimsAt_finishRun {use : EngineUse} (h : ∀ path, use.target? = some path → path ∈ job.request.targets)
    (tail : DiagnosticTail) (status : ExitStatus) : (job.finishRun use tail status).point.AimsAt job.request := by
  unfold finishRun
  cases use with
  | measuring index heard =>
      dsimp only
      split
      · trivial
      · split
        · trivial
        · exact h _ rfl
  | encoding =>
      dsimp only
      split
      · trivial
      · split
        · rename_i hsheet
          exact ExportRequest.pathBeside_mem_targets hsheet
        · exact aimsAt_persist

/-- What a step can do to the files. -/
theorem Goes.writes_cases (h : Goes isCancelled job asked answer job') (haims : job.point.AimsAt job.request) :
    asked.isReadOnly = true ∨ (∃ directory, asked = .makeOutputDirectory directory) ∨
      (∃ directory, asked = .makeSettingsDirectory directory) ∨ asked = .removeOutput job.request.output ∨
      (∃ path text, asked = .writeSheet path text ∧ path ∈ job.request.targets) ∨
      ∃ file text, asked = .writeSettings file text ∧ job.point = .writeSettings file text := by
  cases h with
  | directoryMade | directoryRefused => exact .inr (.inl ⟨_, rfl⟩)
  | settingsPlaceMade | settingsPlaceRefused => exact .inr (.inr (.inl ⟨_, rfl⟩))
  | removed => exact .inr (.inr (.inr (.inl rfl)))
  | sheetWritten hpoint =>
      rw [hpoint] at haims
      exact .inr (.inr (.inr (.inr (.inl ⟨_, _, rfl, haims⟩))))
  | settingsWritten hpoint => exact .inr (.inr (.inr (.inr (.inr ⟨_, _, rfl, hpoint⟩))))
  | _ => exact .inl rfl

theorem Goes.point_of_start {arguments : List String} {started : Except StartError Unit}
    (h : Goes isCancelled job (.startEngine arguments) started job') :
    ∃ use tail, job.point = .engine use tail .start ∧ arguments = job.argumentsOf use := by
  cases h with
  | started hpoint | startRefused hpoint => exact ⟨_, _, hpoint, rfl⟩

/-- A step keeps to the targets. -/
theorem Goes.aimsAt (h : Goes isCancelled job asked answer job') (haims : job.point.AimsAt job.request) :
    job'.point.AimsAt job'.request := by
  refine Point.AimsAt.congr h.keeps.settings h.keeps.output ?_
  cases h with
  | enter hpoint => exact aimsAt_enter hpoint haims
  | announce hpoint =>
      rw [hpoint] at haims
      exact haims
  | checkSource => exact aimsAt_checkSources _ _
  | engineFound =>
      change (Point.enter _).AimsAt job.request
      split
      · rename_i hnormalize
        exact ExportRequest.measuringTarget_mem_targets hnormalize
      · trivial
  | measure hpoint =>
      rw [hpoint] at haims
      intro path hpath
      cases hpath
      exact haims
  | measured hpoint =>
      rw [hpoint] at haims
      exact aimsAt_measureFrom haims _
  | directoryMade hpoint | beforeStart hpoint | started hpoint | heardAll hpoint | stopHearing hpoint
  | awaited hpoint | stopAwaiting hpoint =>
      rw [hpoint] at haims
      exact haims
  | heard hpoint =>
      rw [hpoint] at haims
      exact aimsAt_hear haims _ _ _
  | finishRun hpoint =>
      rw [hpoint] at haims
      exact aimsAt_finishRun haims _ _
  | sheetWritten => exact aimsAt_persist
  | settingsStamped =>
      unfold storeSettings
      split <;> trivial
  | _ => trivial

end Job

namespace Service

variable {service after initial final : Service} {id : Nat} {task : Task} {move : Move} {moves : List Move}
  {path : Path}

/-- No job writes to anything but its targets, nor does an engine that runs for it. -/
structure Aims (service : Service) : Prop where
  job : ∀ {id : Nat} {task : Task}, service.tasks[id]? = some task → task.job.point.AimsAt task.job.request
  run : ∀ {id : Nat} {task : Task} {run : EngineRun} {path : Path}, service.tasks[id]? = some task →
    task.run = some run → run.target = some path → path ∈ task.job.request.targets

theorem target_step? {run run' : EngineRun} {files files' : FileTree} (h : run.step? files = some (run', files')) :
    run'.target = run.target := by
  unfold EngineRun.step? at h
  split at h
  · cases h
    rfl
  · cases h
    rfl
  · cases h
  · cases h
  · cases h

theorem target_resume (run : EngineRun) : run.resume.target = run.target := by
  unfold EngineRun.resume
  split <;> rfl

theorem Aims.update (h : service.Aims) {change : Task → Task} (hjob : ∀ task, (change task).job = task.job)
    (hrun : ∀ task run', service.tasks[id]? = some task → (change task).run = some run' →
      ∃ run, task.run = some run ∧ run'.target = run.target) : (service.update id change).Aims := by
  have hback : ∀ {other : Nat} {task' : Task}, (service.update id change).tasks[other]? = some task' →
      ∃ task, service.tasks[other]? = some task ∧ task'.job = task.job ∧
        ∀ run', task'.run = some run' → ∃ run, task.run = some run ∧ run'.target = run.target := by
    intro other task' htask'
    rw [getElem?_update] at htask'
    split at htask'
    · rename_i hid
      subst hid
      obtain ⟨task, htask, rfl⟩ := Option.map_eq_some_iff.mp htask'
      exact ⟨task, htask, hjob task, fun run' => hrun task run' htask⟩
    · exact ⟨task', htask', rfl, fun run' hrun' => ⟨run', hrun', rfl⟩⟩
  constructor
  · intro other task' htask'
    obtain ⟨task, htask, hsame, -⟩ := hback htask'
    rw [hsame]
    exact h.job htask
  · intro other task' run' path htask' hrun' htarget
    obtain ⟨task, htask, hsame, hruns⟩ := hback htask'
    obtain ⟨run, hrun, hsameTarget⟩ := hruns run' hrun'
    rw [hsame]
    exact h.run htask hrun (hsameTarget.symm.trans htarget)

/-- The engine behind an answer is the one before it, or writes to what it has just been told to. -/
theorem target_runAfter {scripts : List EngineScript} {run : Option EngineRun} {request : Request}
    {answer : request.Answer} {run' : EngineRun} (h : request.runAfter scripts run answer = some run') :
    (∃ before, run = some before ∧ run'.target = before.target) ∨
      ∃ arguments, request = .startEngine arguments ∧ run'.target = arguments.getLast?.map Path.mk := by
  unfold Request.runAfter at h
  split at h
  · cases h
    exact .inr ⟨_, rfl, rfl⟩
  · obtain ⟨before, hbefore, rfl⟩ := Option.map_eq_some_iff.mp h
    exact .inl ⟨before, hbefore, rfl⟩
  · cases h
  · cases h
  · exact .inl ⟨run', h, rfl⟩

theorem Moves.aims (hmove : service.Moves move after) (h : service.Aims) : after.Aims := by
  cases hmove with
  | refuse | cancelNothing => exact h
  | pass => exact ⟨h.job, h.run⟩
  | cancel => exact h.update (fun _ => rfl) fun _ run' _ hrun' => ⟨run', hrun', rfl⟩
  | resume =>
      refine h.update (fun _ => rfl) fun task run' _ hrun' => ?_
      obtain ⟨run, hrun, rfl⟩ := Option.map_eq_some_iff.mp hrun'
      exact ⟨run, hrun, target_resume run⟩
  | @engine id task run run' files htask hrun hstep =>
      have hfiles : Aims { service with files } := ⟨h.job, h.run⟩
      refine hfiles.update (fun _ => rfl) fun task' run'' htask' hrun'' => ?_
      cases htask.symm.trans htask'
      cases hrun''
      exact ⟨run, hrun, target_step? hstep⟩
  | @start request hslot =>
      have hnew : service.Moves (.start request) _ := .start hslot
      have hcases : ∀ {id : Nat} {task : Task}, (service.tasks ++
          [{ job := { id := service.tasks.length, request, settingsFile := service.settingsFile } }])[id]? =
          some task → service.tasks[id]? = some task ∨ task.job.point = .enter .validating ∧ task.run = none := by
        intro id task htask
        rcases hnew.task_cases htask with ⟨old, hold⟩ | ⟨-, -, -, -, rfl⟩
        · rw [List.getElem?_append_left (List.getElem?_eq_some_iff.mp hold).1] at htask
          exact .inl htask
        · exact .inr ⟨rfl, rfl⟩
      constructor
      · intro id task htask
        rcases hcases htask with hold | ⟨hpoint, -⟩
        · exact h.job hold
        · rw [hpoint]
          trivial
      · intro id task run path htask hrun htarget
        rcases hcases htask with hold | ⟨-, hnone⟩
        · exact h.run hold hrun htarget
        · cases hnone.symm.trans hrun
  | @job mover task request answer between job htask hgoes hanswer =>
      constructor
      · intro id task' htask'
        rcases tasks_of_answer htask hanswer htask' with ⟨rfl, rfl, -⟩ | ⟨-, hold⟩
        · exact hgoes.aimsAt (h.job htask)
        · exact h.job hold
      · intro id task' run' path htask' hrun' htarget
        rcases tasks_of_answer htask hanswer htask' with ⟨rfl, rfl, hafter⟩ | ⟨-, hold⟩
        · rw [ExportRequest.targets_congr hgoes.keeps.settings hgoes.keeps.output]
          rcases target_runAfter (hafter.symm.trans hrun') with ⟨run, hrun, hsame⟩ | ⟨arguments, rfl, hsame⟩
          · exact h.run htask hrun (hsame.symm.trans htarget)
          · have haims := h.job htask
            obtain ⟨use, tail, hpoint, rfl⟩ := hgoes.point_of_start
            rw [hpoint] at haims
            exact haims path (Job.getLast?_argumentsOf (hsame.symm.trans htarget))
        · exact h.run hold hrun' htarget

theorem IsFresh.aims (h : service.IsFresh) : service.Aims where
  job := by
    intro id task htask
    rw [h.tasks] at htask
    cases htask
  run := by
    intro id task run path htask
    rw [h.tasks] at htask
    cases htask

theorem aims_of_moves? (hfresh : initial.IsFresh) (hrun : initial.moves? moves = some final) : final.Aims :=
  invariant_of_moves? (p := Aims) (fun _ _ _ haims hmove => hmove.aims haims) hfresh.aims hrun

/-! ### What is left alone -/

def Saves (id : Nat) (file : Path) (service : Service) (move : Move) : Prop :=
  move = .job id ∧ ∃ task text files, service.tasks[id]? = some task ∧ task.job.point = .writeSettings file text ∧
    service.files.write file text = .ok files

theorem retains_withFiles {result : Except FileError FileTree}
    (h : ∀ files, result = .ok files → service.files.Retains files path) :
    service.files.Retains (service.withFiles result).files path := by
  cases result with
  | ok files => exact h files rfl
  | error error => exact .refl service.files path

theorem retains_step? {run run' : EngineRun} {files files' : FileTree} (h : run.step? files = some (run', files'))
    (htarget : ∀ target, run.target = some target → target.place ≠ path.place) : files.Retains files' path := by
  unfold EngineRun.step? at h
  split at h
  · rename_i text rest hactions
    cases h
    cases hnamed : run.target with
    | none => exact .refl files path
    | some target =>
        change files.Retains ((files.write target text).toOption.getD files) path
        cases hwrite : files.write target text with
        | ok written => exact .write (htarget target hnamed) hwrite
        | error error => exact .refl files path
  · cases h
    exact .refl files path
  · cases h
  · cases h
  · cases h

/-- What a job does, or its engine, leaves a file alone that is not written to, unless settings are
written. -/
theorem Moves.retains (h : service.Moves move after) (haims : service.Aims)
    (havoids : ∀ {id : Nat} {task : Task}, service.tasks[id]? = some task → move.isOf id = true →
      task.job.request.Avoids path) :
    service.files.Retains after.files path ∨ ∃ id file, Saves id file service move := by
  cases h with
  | @job mover task request answer between job htask hgoes hanswer =>
      have havoid := havoids htask (beq_self_eq_true mover)
      change service.files.Retains between.files path ∨ _
      rcases hgoes.writes_cases (haims.job htask) with hreads | ⟨directory, rfl⟩ | ⟨directory, rfl⟩ | rfl |
        ⟨target, text, rfl, htarget⟩ | ⟨file, text, rfl, hpoint⟩
      · rw [files_of_answer hreads hanswer]
        exact .inl (.refl _ path)
      · cases hanswer
        exact .inl (.makeDirectories _ _ path)
      · cases hanswer
        exact .inl (.makeDirectories _ _ path)
      · cases hanswer
        exact .inl (retains_withFiles fun files hremove =>
          .remove (havoid _ ExportRequest.output_mem_targets) hremove)
      · cases hanswer
        exact .inl (retains_withFiles fun files hwrite => .write (havoid _ htarget) hwrite)
      · cases hanswer
        cases hwrite : service.files.write file text with
        | ok files => exact .inr ⟨mover, file, rfl, task, text, files, htask, hpoint, hwrite⟩
        | error error => exact .inl (.refl _ path)
  | @engine mover task run run' files htask hrun hstep =>
      have havoid := havoids htask (beq_self_eq_true mover)
      exact .inl (retains_step? hstep fun target htarget => havoid target (haims.run htask hrun htarget))
  | _ => exact .inl (.refl _ path)

/-- A job, or its engine, changes the file of a path. -/
def Alters (id : Nat) (path : Path) (service : Service) (move : Move) : Prop :=
  move.isOf id = true ∧ ∃ after, service.move? move = some after ∧
    after.files.textAt? path ≠ service.files.textAt? path

theorem eq_of_isOf {other : Nat} (h : move.isOf id = true) (hother : move.isOf other = true) : id = other := by
  cases move with
  | job mover | engine mover | resume mover =>
      have hid : mover = id := beq_iff_eq.mp h
      exact hid.symm.trans (beq_iff_eq.mp hother)
  | _ => cases h

theorem avoids_of_keeps {job job' : Job} (hkeeps : job.Keeps job') (h : job'.request.Avoids path) :
    job.request.Avoids path := by
  intro target htarget
  rw [← ExportRequest.targets_congr hkeeps.settings hkeeps.output] at htarget
  exact h target htarget

/-- Who changes a file that is not written to is about to complete. -/
theorem fate?_of_alters (hfresh : initial.IsFresh) (hrun : initial.moves? moves = some final)
    (htask : final.tasks[id]? = some task) (havoids : task.job.request.Avoids path)
    (h : initial.Made moves (Alters id path)) : task.job.point.fate? = some .complete := by
  obtain ⟨earlier, move, later, between, hmoves, hearlier, hof, after, hmove, hchanged⟩ := h
  have hreach : ∀ {mover : Task}, between.tasks[id]? = some mover → ∃ told, mover.job.Reaches told task.job := by
    intro mover hmover
    obtain ⟨told, task', htask', hreaches⟩ := reaches_of_middle hfresh hrun hmoves hearlier hmover
    cases htask.symm.trans htask'
    exact ⟨told, hreaches⟩
  have havoids' : ∀ {other : Nat} {mover : Task}, between.tasks[other]? = some mover → move.isOf other = true →
      mover.job.request.Avoids path := by
    intro other mover hmover hother
    cases eq_of_isOf hof hother
    obtain ⟨told, hreaches⟩ := hreach hmover
    exact avoids_of_keeps hreaches.keeps havoids
  rcases (moves_of_move? hmove).retains (aims_of_moves? hfresh hearlier) havoids' with
    hretains | ⟨other, file, rfl, mover, text, files, hmover, hpoint, -⟩
  · exact (hchanged hretains.textAt?_eq).elim
  · cases eq_of_isOf hof (beq_self_eq_true other)
    obtain ⟨told, hreaches⟩ := hreach hmover
    exact hreaches.fate?_eq (by rw [hpoint]; rfl)

end Service

end Segue
