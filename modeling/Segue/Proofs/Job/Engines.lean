import Segue.Proofs.Job.Runs

/-!
The engines that are run for a job. Main statements: what an engine has said and will say, and how
it will end, does not change while it runs; and each further run for a job goes by the next script.
-/

namespace Segue

def EngineAction.saying : EngineAction → List Char
  | .say piece => Text.decodeLossy piece
  | _ => []

def EngineScript.output (script : EngineScript) : List Char := script.actions.flatMap EngineAction.saying

namespace EngineRun

variable {run run' : EngineRun}

/-- What can still be heard of a running engine, and how it ends. -/
def prospect (run : EngineRun) : List Char × ExitStatus :=
  (run.unheard.flatMap Text.decodeLossy ++ run.script.output, run.script.status)

theorem prospect_step? {files files' : FileTree} (h : run.step? files = some (run', files')) :
    run'.prospect = run.prospect := by
  unfold step? at h
  split at h
  · rename_i text rest hactions
    cases h
    simp [prospect, advance, EngineScript.output, hactions, EngineAction.saying]
  · rename_i piece rest hactions
    cases h
    simp [prospect, advance, EngineScript.output, hactions, EngineAction.saying]
  · cases h
  · cases h
  · cases h

theorem prospect_resume (run : EngineRun) : run.resume.prospect = run.prospect := by
  unfold resume
  split
  · rename_i rest hactions
    simp [prospect, advance, EngineScript.output, hactions, EngineAction.saying]
  · rfl

/-- What is heard of an engine is the first part of what could be heard of it. -/
theorem prospect_of_unheard {piece : List UInt8} {rest : List (List UInt8)} (h : run.unheard = piece :: rest) :
    run.prospect = (Text.decodeLossy piece ++ { run with unheard := rest }.prospect.1, run.script.status) := by
  simp [prospect, h]

/-- Of an engine that has ended and been heard, nothing can be heard any more. -/
theorem prospect_of_hasEnded (hunheard : run.unheard = []) (hended : run.hasEnded = true) :
    run.prospect = ([], run.script.status) := by
  have hactions : run.script.actions = [] := List.isEmpty_iff.mp hended
  simp [prospect, hunheard, EngineScript.output, hactions]

end EngineRun

/-- An answer starts the engine once at most. -/
theorem Request.started_cases (request : Request) (answer : request.Answer) :
    request.started answer = [] ∨ ∃ arguments, request.started answer = [arguments] := by
  cases request with
  | startEngine arguments =>
      cases answer with
      | ok => exact .inr ⟨arguments, rfl⟩
      | error => exact .inl rfl
  | _ => exact .inl rfl

namespace Service

variable {service after : Service} {id : Nat} {task : Task} {move : Move} {scripts : List EngineScript}

/-- The runs of the engine for a job, with their arguments and with what they do; the scripts are
all that there are for the runs of a service. -/
def runsOf (scripts : List EngineScript) (service : Service) (id : Nat) : List (List String × EngineScript) :=
  service.invocations.zipIdx.filterMap fun entry =>
    if entry.1.1 = id then some (entry.1.2, scripts[entry.2]?.getD {}) else none

/-- The scripts that are left are those behind the runs so far. -/
def IsServed (scripts : List EngineScript) (service : Service) : Prop :=
  service.scripts = scripts.drop service.invocations.length

theorem runsOf_of_eq (h : after.invocations = service.invocations) :
    after.runsOf scripts id = service.runsOf scripts id := by
  rw [runsOf, runsOf, h]

theorem runsOf_append {mover : Nat} {arguments : List String} (hserved : service.IsServed scripts)
    (h : after.invocations = service.invocations ++ [(mover, arguments)]) :
    after.runsOf scripts id = service.runsOf scripts id ++
      if mover = id then [(arguments, service.scripts.head?.getD {})] else [] := by
  rw [runsOf, runsOf, h, List.zipIdx_append, List.filterMap_append, hserved, List.head?_drop, Nat.zero_add]
  split
  · rename_i hid
    simp [hid]
  · rename_i hid
    simp [hid]

/-- A further run goes by the next script, and it is a run for the job that starts it. -/
theorem runsOf_of_started {mover : Nat} {request : Request} {answer : request.Answer}
    (hserved : service.IsServed scripts) (h : after.invocations =
      service.invocations ++ (request.started answer).map fun arguments => (mover, arguments)) :
    after.runsOf scripts id = service.runsOf scripts id ++
      if mover = id then (request.started answer).map fun arguments => (arguments, service.scripts.head?.getD {})
      else [] := by
  rcases request.started_cases answer with hstarted | ⟨arguments, hstarted⟩
  · rw [hstarted] at h ⊢
    rw [List.map_nil, ite_self, List.append_nil]
    exact runsOf_of_eq (h.trans (List.append_nil _))
  · rw [hstarted] at h ⊢
    exact runsOf_append hserved h

/-- What a move makes of a task and of its engine, with the runs that it starts for it. -/
inductive Drives (service : Service) (move : Move) (id : Nat) (task : Task) :
    List (List String × EngineScript) → Task → Prop
  | rest {task' : Task} (hjob : task'.job = task.job)
      (hengine : task'.run.map EngineRun.prospect = task.run.map EngineRun.prospect) :
      Drives service move id task [] task'
  | go {task' : Task} {request : Request} {answer : request.Answer} (hmove : move = .job id)
      (hgoes : Job.Goes task.isCancelled task.job request answer task'.job) (hheeds : request.Heeds task.run answer)
      (hrun : task'.run = request.runAfter service.scripts task.run answer) :
      Drives service move id task
        ((request.started answer).map fun arguments => (arguments, service.scripts.head?.getD {})) task'

theorem Moves.isServed (h : service.Moves move after) (hserved : service.IsServed scripts) :
    after.IsServed scripts := by
  cases h with
  | @job mover task request answer between job htask hgoes hanswer =>
      have hscripts := (answered_of_answer hanswer).scripts
      have hinvocations := (answered_of_answer hanswer).invocations
      change between.scripts = scripts.drop between.invocations.length
      rw [hscripts, hinvocations, hserved, List.drop_drop, List.length_append, List.length_map]
  | _ => exact hserved

theorem drives_rest (hlength : after.invocations = service.invocations) (htask : after.tasks[id]? = some task) :
    ∃ runs task', after.tasks[id]? = some task' ∧ service.Drives move id task runs task' ∧
      after.runsOf scripts id = service.runsOf scripts id ++ runs :=
  ⟨[], task, htask, .rest rfl rfl, by rw [List.append_nil, runsOf_of_eq hlength]⟩

theorem drives_update {change : Task → Task} {mover : Nat} (hlength : after.invocations = service.invocations)
    (htasks : after.tasks = (service.update mover change).tasks) (htask : service.tasks[id]? = some task)
    (hjob : ∀ task, (change task).job = task.job)
    (hengine : mover = id → (change task).run.map EngineRun.prospect = task.run.map EngineRun.prospect) :
    ∃ runs task', after.tasks[id]? = some task' ∧ service.Drives move id task runs task' ∧
      after.runsOf scripts id = service.runsOf scripts id ++ runs := by
  have hruns : after.runsOf scripts id = service.runsOf scripts id ++ [] := by
    rw [List.append_nil, runsOf_of_eq hlength]
  by_cases hid : mover = id
  · refine ⟨[], change task, ?_, .rest (hjob task) (hengine hid), hruns⟩
    rw [htasks, getElem?_update, if_pos hid, htask, Option.map_some]
  · refine ⟨[], task, ?_, .rest rfl rfl, hruns⟩
    rw [htasks, getElem?_update, if_neg hid, htask]

theorem Moves.drives (h : service.Moves move after) (hserved : service.IsServed scripts)
    (htask : service.tasks[id]? = some task) :
    ∃ runs task', after.tasks[id]? = some task' ∧ service.Drives move id task runs task' ∧
      after.runsOf scripts id = service.runsOf scripts id ++ runs := by
  cases h with
  | start hslot =>
      refine drives_rest rfl ?_
      rw [← htask]
      exact List.getElem?_append_left (List.getElem?_eq_some_iff.mp htask).1
  | refuse | cancelNothing | pass => exact drives_rest rfl htask
  | cancel hslot => exact drives_update rfl rfl htask (fun _ => rfl) fun _ => rfl
  | resume =>
      refine drives_update rfl rfl htask (fun _ => rfl) fun _ => ?_
      rw [Option.map_map]
      exact congrArg (fun prospect => task.run.map prospect) (funext EngineRun.prospect_resume)
  | @engine mover other run run' files hmover hrun hstep =>
      refine drives_update rfl rfl htask (fun _ => rfl) ?_
      rintro rfl
      cases htask.symm.trans hmover
      rw [hrun]
      exact congrArg some (EngineRun.prospect_step? hstep)
  | @job mover other request answer between job hmover hgoes hanswer =>
      have hanswered := answered_of_answer hanswer
      have hinvocations : (between.update mover fun task => { task with job }).invocations = _ :=
        hanswered.invocations
      have htask' : ∃ task', (between.update mover fun task => { task with job }).tasks[id]? = some task' := by
        obtain ⟨task', htask', -⟩ := exists_face_eq hanswered.faces htask
        rw [getElem?_update, htask']
        split
        · exact ⟨_, rfl⟩
        · exact ⟨_, rfl⟩
      obtain ⟨task', htask'⟩ := htask'
      have hruns := @runsOf_of_started service _ id scripts mover request answer hserved hinvocations
      rcases tasks_of_answer hmover hanswer htask' with ⟨rfl, rfl, hrun⟩ | ⟨hid, hold⟩
      · cases htask.symm.trans hmover
        rw [if_pos rfl] at hruns
        exact ⟨_, task', htask', .go rfl hgoes hanswered.heeds hrun, hruns⟩
      · cases htask.symm.trans hold
        rw [if_neg hid] at hruns
        exact ⟨[], task, htask', .rest rfl rfl, hruns⟩

/-- A service that nothing has been asked of and that has not run any engine. -/
structure IsUnused (service : Service) : Prop extends service.IsFresh where
  invocations : service.invocations = []

/-- Engines have been run for jobs that have been started. -/
def IsNumbered (service : Service) : Prop := ∀ entry ∈ service.invocations, entry.1 < service.tasks.length

theorem Moves.isNumbered (h : service.Moves move after) (hnumbered : service.IsNumbered) : after.IsNumbered := by
  intro entry hentry
  have hlength := h.length_le
  have hold : entry ∈ service.invocations → entry.1 < after.tasks.length := fun hmem =>
    Nat.lt_of_lt_of_le (hnumbered entry hmem) hlength
  cases h with
  | @job mover task request answer between job htask hgoes hanswer =>
      have hinvocations : (between.update mover fun task => { task with job }).invocations = _ :=
        (answered_of_answer hanswer).invocations
      rw [hinvocations, List.mem_append, List.mem_map] at hentry
      rcases hentry with hmem | ⟨arguments, -, rfl⟩
      · exact hold hmem
      · exact Nat.lt_of_lt_of_le (List.getElem?_eq_some_iff.mp htask).1 hlength
  | _ => exact hold hentry

section

variable {initial started : Service} {before : List Move} {request : ExportRequest} (hunused : initial.IsUnused)
  (hbefore : initial.moves? before = some service)

include hunused hbefore

theorem isServed_of_moves? : service.IsServed initial.scripts := by
  refine invariant_of_moves? (p := IsServed initial.scripts) (fun _ _ _ hserved hmoves => hmoves.isServed hserved) ?_
    hbefore
  rw [IsServed, hunused.invocations]
  rfl

/-- No engine has been run for a job that has just been started. -/
theorem runsOf_of_start (hstart : service.start request = .ok (id, started)) :
    started.runsOf initial.scripts id = [] := by
  have hnumbered : service.IsNumbered := by
    refine invariant_of_moves? (p := IsNumbered) (fun _ _ _ hnumbered hmoves => hmoves.isNumbered hnumbered) ?_ hbefore
    rw [IsNumbered, hunused.invocations]
    exact List.forall_mem_nil _
  obtain ⟨-, rfl, hmove, -⟩ := start_eq_ok hstart
  have hsame : started.invocations = service.invocations := by
    cases moves_of_move? hmove <;> rfl
  rw [runsOf_of_eq hsame, runsOf, List.filterMap_eq_nil_iff]
  intro entry hentry
  have hlt := hnumbered entry.1 (List.fst_mem_of_mem_zipIdx hentry)
  rw [if_neg (Nat.ne_of_lt hlt)]

end

end Service

end Segue
