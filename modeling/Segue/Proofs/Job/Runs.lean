import Segue.Proofs.Job.Steps

/-!
What a move of the service does to one job. Main statement: a move leaves a job as it is, asks it to
stop, or is a step of that job; and the job's own events grow by what it announces in that step.
-/

namespace Segue

/-- What of a task does not depend on its engine. -/
def Task.face (task : Task) : Job × Bool := (task.job, task.isCancelled)

def Move.isStart : Move → Bool
  | .start _ => true
  | _ => false

def Move.isStepOf (id : Nat) : Move → Bool
  | .job other => other == id
  | _ => false

def Request.isRelease : Request → Bool
  | .releaseSlot => true
  | _ => false

/-- The engine of a job behind an answer to it. -/
def Request.runAfter (scripts : List EngineScript) (run : Option EngineRun) :
    (request : Request) → request.Answer → Option EngineRun
  | .startEngine arguments, .ok () =>
    some { target := arguments.getLast?.map Path.mk, script := scripts.head?.getD {} }
  | .hearEngine, .piece _ _ => run.map fun engine => { engine with unheard := engine.unheard.tail }
  | .awaitEngine, some _ | .stopEngine, _ => none
  | _, _ => run

def Request.started : (request : Request) → request.Answer → List (List String)
  | .startEngine arguments, .ok () => [arguments]
  | _, _ => []

/-- What a job is told of its engine is what that has said and how it has ended. -/
def Request.Heeds (run : Option EngineRun) : (request : Request) → request.Answer → Prop
  | .hearEngine, .piece bytes _ => ∃ engine rest, run = some engine ∧ engine.unheard = bytes :: rest
  | .hearEngine, .silence => ∀ engine, run = some engine → engine.unheard = [] ∧ engine.hasEnded = true
  | .awaitEngine, some status => ∀ engine, run = some engine → engine.hasEnded = true ∧ status = engine.script.status
  | _, _ => True

namespace Service

variable {service after : Service} {id : Nat} {task : Task}

theorem getElem?_update (service : Service) (id : Nat) (change : Task → Task) (other : Nat) :
    (service.update id change).tasks[other]? =
      if id = other then service.tasks[other]?.map change else service.tasks[other]? := by
  rw [update, List.getElem?_modify]
  by_cases h : id = other <;> simp [h]

theorem length_update (service : Service) (id : Nat) (change : Task → Task) :
    (service.update id change).tasks.length = service.tasks.length := List.length_modify _ _ _

theorem faces_update (service : Service) (id : Nat) {change : Task → Task}
    (h : ∀ task, (change task).face = task.face) :
    (service.update id change).tasks.map Task.face = service.tasks.map Task.face := by
  apply List.ext_getElem?
  intro other
  rw [List.getElem?_map, List.getElem?_map, getElem?_update]
  split
  · rw [Option.map_map]
    exact congrArg (fun face => service.tasks[other]?.map face) (funext h)
  · rfl

theorem withFiles_eq (service : Service) (files : Except FileError FileTree) :
    ∃ tree, service.withFiles files = { service with files := tree } := by
  cases files with
  | ok tree => exact ⟨tree, rfl⟩
  | error => exact ⟨service.files, rfl⟩

theorem release_eq (service : Service) (id : Nat) :
    service.release id = { service with slot := if service.slot = some id then none else service.slot } := by
  unfold release
  split <;> rfl

/-- What the service makes of a request, whatever the request is. -/
structure Answered (service : Service) (id : Nat) (task : Task) (request : Request) (answer : request.Answer)
    (after : Service) : Prop where
  honest : request.Honest task.isCancelled answer
  heeds : request.Heeds task.run answer
  /-- Nothing of the tasks changes but the engine of the one that is answered. -/
  tasks : ∃ change : Task → Task, (∀ task, (change task).face = task.face) ∧
    (change task).run = request.runAfter service.scripts task.run answer ∧
    after.tasks = (service.update id change).tasks
  events : after.events = service.events ++ request.announced
  slot : after.slot = if request.isRelease ∧ service.slot = some id then none else service.slot
  scripts : after.scripts = service.scripts.drop (request.started answer).length
  invocations : after.invocations = service.invocations ++ (request.started answer).map fun arguments => (id, arguments)

theorem tasks_of_eq {request : Request} {answer : request.Answer} (htasks : after.tasks = service.tasks)
    (hrun : request.runAfter service.scripts task.run answer = task.run) :
    ∃ change : Task → Task, (∀ task, (change task).face = task.face) ∧
      (change task).run = request.runAfter service.scripts task.run answer ∧
      after.tasks = (service.update id change).tasks :=
  ⟨fun task => task, fun _ => rfl, hrun.symm, htasks.trans (List.modify_id _ _).symm⟩

theorem Answered.of_tree {request : Request} {answer : request.Answer} {tree : FileTree}
    (hhonest : request.Honest task.isCancelled answer) (hheeds : request.Heeds task.run answer)
    (hsilent : request.announced = []) (hrelease : request.isRelease = false)
    (hrun : request.runAfter service.scripts task.run answer = task.run) (hstarted : request.started answer = [])
    (hafter : after = { service with files := tree }) : Answered service id task request answer after where
  honest := hhonest
  heeds := hheeds
  tasks := tasks_of_eq (by rw [hafter]) hrun
  events := by rw [hafter, hsilent, List.append_nil]
  slot := by rw [hafter, hrelease]; simp
  scripts := by rw [hafter, hstarted]; rfl
  invocations := by rw [hafter, hstarted]; exact (List.append_nil _).symm

theorem Answered.of_update {request : Request} {answer : request.Answer} {change : Task → Task}
    (hafter : after = service.update id change) (hhonest : request.Honest task.isCancelled answer)
    (hheeds : request.Heeds task.run answer) (hsilent : request.announced = []) (hrelease : request.isRelease = false)
    (hchange : ∀ task, (change task).face = task.face)
    (hrun : (change task).run = request.runAfter service.scripts task.run answer)
    (hstarted : request.started answer = []) :
    Answered service id task request answer after where
  honest := hhonest
  heeds := hheeds
  tasks := ⟨change, hchange, hrun, by rw [hafter]⟩
  events := by rw [hafter, hsilent, List.append_nil]; rfl
  slot := by rw [hafter, hrelease, if_neg (by simp)]; rfl
  scripts := by rw [hafter, hstarted]; rfl
  invocations := by rw [hafter, hstarted]; exact (List.append_nil _).symm

theorem Answered.faces {request : Request} {answer : request.Answer}
    (h : Answered service id task request answer after) :
    after.tasks.map Task.face = service.tasks.map Task.face := by
  obtain ⟨change, hface, -, htasks⟩ := h.tasks
  rw [htasks, faces_update service id hface]

theorem answer_startEngine (service : Service) (id : Nat) (task : Task) (arguments : List String) :
    service.answer id task (.startEngine arguments) = match service.engine.startable arguments service.files with
      | .ok () => some (.ok (), service.startEngine id arguments)
      | .error error => some (.error error, service) := rfl

theorem answered_start (arguments : List String) :
    Answered service id task (.startEngine arguments) (.ok ()) (service.startEngine id arguments) where
  honest := trivial
  heeds := trivial
  tasks := ⟨fun task => { task with
    run := some { target := arguments.getLast?.map Path.mk, script := service.scripts.head?.getD {} }
    startedAt := service.clock }, fun _ => rfl, rfl, rfl⟩
  events := (List.append_nil _).symm
  slot := (if_neg (by simp [Request.isRelease])).symm
  scripts := List.drop_one.symm
  invocations := rfl

theorem answered_hear {heard : Heard} (h : service.hear id task = some (heard, after)) :
    Answered service id task .hearEngine heard after := by
  unfold hear at h
  split at h
  · rename_i hcancelled
    cases h
    exact .of_tree hcancelled trivial rfl rfl rfl rfl rfl
  · rename_i hcancelled
    have hcancelled : task.isCancelled = false := by simpa using hcancelled
    split at h
    · rename_i hrun
      cases h
      exact .of_tree hcancelled (by rw [hrun]; exact nofun) rfl rfl rfl rfl rfl
    · rename_i run hrun
      split at h
      · rename_i piece rest hunheard
        cases h
        refine .of_update rfl hcancelled ⟨run, rest, hrun, hunheard⟩ rfl rfl (fun _ => rfl) ?_ rfl
        rw [hrun, Request.runAfter, Option.map_some, hunheard]
        rfl
      · rename_i hunheard
        split at h
        · rename_i hended
          cases h
          refine .of_tree hcancelled ?_ rfl rfl rfl rfl rfl
          rintro engine hengine
          cases hrun.symm.trans hengine
          exact ⟨hunheard, hended⟩
        · cases h

theorem answered_await {status : Option ExitStatus} (h : service.await id task = some (status, after)) :
    Answered service id task .awaitEngine status after := by
  unfold await at h
  split at h
  · rename_i hcancelled
    cases h
    exact .of_tree hcancelled.symm trivial rfl rfl rfl rfl rfl
  · rename_i hcancelled
    have hcancelled : task.isCancelled = false := by simpa using hcancelled
    split at h
    · rename_i hrun
      cases h
      exact .of_tree hcancelled.symm (by rw [hrun]; exact nofun) rfl rfl hrun.symm rfl rfl
    · rename_i run hrun
      split at h
      · rename_i hended
        cases h
        refine .of_update rfl hcancelled.symm ?_ rfl rfl (fun _ => rfl) rfl rfl
        rintro engine hengine
        cases hrun.symm.trans hengine
        exact ⟨hended, rfl⟩
      · cases h

theorem answered_of_answer {request : Request} {answer : request.Answer}
    (h : service.answer id task request = some (answer, after)) : Answered service id task request answer after := by
  cases request with
  | isCancelled =>
      cases h
      exact .of_tree rfl trivial rfl rfl rfl rfl rfl
  | announce event =>
      cases h
      exact ⟨trivial, trivial, tasks_of_eq rfl rfl, rfl, by simp [Request.isRelease], rfl, (List.append_nil _).symm⟩
  | hearEngine => exact answered_hear h
  | awaitEngine => exact answered_await h
  | startEngine arguments =>
      rw [answer_startEngine] at h
      split at h
      · cases h
        exact answered_start arguments
      · cases h
        exact .of_tree trivial trivial rfl rfl rfl rfl rfl
  | stopEngine =>
      cases h
      exact .of_update rfl trivial trivial rfl rfl (fun _ => rfl) rfl rfl
  | removeOutput path =>
      cases h
      obtain ⟨tree, htree⟩ := service.withFiles_eq (service.files.remove path)
      exact .of_tree trivial trivial rfl rfl rfl rfl htree
  | writeSheet path text | writeSettings path text =>
      cases h
      obtain ⟨tree, htree⟩ := service.withFiles_eq (service.files.write path text)
      exact .of_tree trivial trivial rfl rfl rfl rfl htree
  | releaseSlot =>
      cases h
      rw [release_eq]
      exact ⟨trivial, trivial, tasks_of_eq rfl rfl, (List.append_nil _).symm, by simp [Request.isRelease], rfl,
        (List.append_nil _).symm⟩
  | _ =>
      cases h
      exact .of_tree trivial trivial rfl rfl rfl rfl rfl

theorem stepJob?_of_task (htask : service.tasks[id]? = some task) :
    service.stepJob? id = match task.job.next with
      | .ended _ => none
      | .ask request resume => (service.answer id task request).map fun answered =>
        answered.2.update id fun task => { task with job := resume answered.1 } := by
  unfold stepJob?
  rw [htask, Option.bind_eq_bind, Option.bind_some]
  cases task.job.next with
  | ended => rfl
  | ask request resume =>
      dsimp only
      cases service.answer id task request <;> rfl

/-- A move of a job is one of its steps, with an answer of the service to what it asks for. -/
theorem stepJob?_eq_some (h : service.stepJob? id = some after) :
    ∃ task request answer between job, service.tasks[id]? = some task ∧
      Job.Goes task.isCancelled task.job request answer job ∧
      service.answer id task request = some (answer, between) ∧
      after = between.update id fun task => { task with job } := by
  obtain ⟨task, htask, h⟩ := Option.bind_eq_some_iff.mp h
  cases hnext : task.job.next with
  | ended outcome =>
      rw [hnext] at h
      cases h
  | ask request resume =>
      rw [hnext] at h
      obtain ⟨⟨answer, between⟩, hanswer, h⟩ := Option.bind_eq_some_iff.mp h
      cases h
      have hgoes := Job.goes_of_next hnext answer (answered_of_answer hanswer).honest
      exact ⟨task, request, answer, between, resume answer, htask, hgoes, hanswer, rfl⟩

/-- What an answer and the step behind it leave of the tasks. -/
theorem tasks_of_answer {request : Request} {answer : request.Answer} {between : Service} {job : Job} {mover : Nat}
    {task' : Task} (htask : service.tasks[mover]? = some task)
    (hanswer : service.answer mover task request = some (answer, between))
    (htask' : (between.update mover fun task => { task with job }).tasks[id]? = some task') :
    mover = id ∧ task'.job = job ∧ task'.run = request.runAfter service.scripts task.run answer ∨
      mover ≠ id ∧ service.tasks[id]? = some task' := by
  obtain ⟨change, -, hrun, htasks⟩ := (answered_of_answer hanswer).tasks
  rw [getElem?_update, htasks, getElem?_update] at htask'
  by_cases hid : mover = id
  · subst hid
    rw [if_pos rfl, if_pos rfl, htask] at htask'
    cases htask'
    exact .inl ⟨rfl, rfl, hrun⟩
  · rw [if_neg hid, if_neg hid] at htask'
    exact .inr ⟨hid, htask'⟩

theorem request?_of_next {request : Request} {resume : request.Answer → Job}
    (htask : service.tasks[id]? = some task) (hnext : task.job.next = .ask request resume) :
    service.request? id = some request := by
  rw [request?, htask, Option.bind_eq_bind, Option.bind_some, hnext]

/-- What a job asks for in a step. -/
theorem request?_of_goes {isCancelled : Bool} {request : Request} {answer : request.Answer} {job : Job}
    (htask : service.tasks[id]? = some task) (hgoes : Job.Goes isCancelled task.job request answer job) :
    service.request? id = some request := by
  obtain ⟨resume, hnext⟩ := hgoes.asks
  exact request?_of_next htask hnext

/-! ### Moves -/

inductive Moves (service : Service) : Move → Service → Prop
  | start {request : ExportRequest} (hslot : service.slot = none) :
      Moves service (.start request)
        { service with
          slot := some service.tasks.length
          tasks := service.tasks ++
            [{ job := { id := service.tasks.length, request, settingsFile := service.settingsFile } }] }
  | refuse {request : ExportRequest} {id : Nat} (hslot : service.slot = some id) :
      Moves service (.start request) service
  | cancel {id : Nat} (hslot : service.slot = some id) :
      Moves service .cancel (service.update id fun task => { task with isCancelled := true })
  | cancelNothing (hslot : service.slot = none) : Moves service .cancel service
  | job {id : Nat} {task : Task} {request : Request} {answer : request.Answer} {between : Service} {job : Job}
      (htask : service.tasks[id]? = some task) (hgoes : Job.Goes task.isCancelled task.job request answer job)
      (hanswer : service.answer id task request = some (answer, between)) :
      Moves service (.job id) (between.update id fun task => { task with job })
  | engine {id : Nat} {task : Task} {run run' : EngineRun} {files : FileTree}
      (htask : service.tasks[id]? = some task) (hrun : task.run = some run)
      (hstep : run.step? service.files = some (run', files)) :
      Moves service (.engine id) (Service.update { service with files } id fun task => { task with run := some run' })
  | resume {id : Nat} : Moves service (.resume id) (service.resumeEngine id)
  | pass {seconds : Float} : Moves service (.pass seconds) { service with clock := service.clock + seconds }

theorem moves_of_move? {move : Move} (h : service.move? move = some after) : service.Moves move after := by
  cases move with
  | start request =>
      unfold move? start at h
      cases hslot : service.slot with
      | none =>
          rw [hslot] at h
          cases h
          exact .start hslot
      | some id =>
          rw [hslot] at h
          cases h
          exact .refuse hslot
  | cancel =>
      unfold move? cancel at h
      cases hslot : service.slot with
      | none =>
          rw [hslot] at h
          cases h
          exact .cancelNothing hslot
      | some id =>
          rw [hslot] at h
          cases h
          exact .cancel hslot
  | job id =>
      obtain ⟨task, request, answer, between, job, htask, hgoes, hanswer, rfl⟩ := stepJob?_eq_some h
      exact .job htask hgoes hanswer
  | engine id =>
      obtain ⟨task, htask, h⟩ := Option.bind_eq_some_iff.mp h
      obtain ⟨run, hrun, h⟩ := Option.bind_eq_some_iff.mp h
      obtain ⟨⟨run', files⟩, hstep, h⟩ := Option.bind_eq_some_iff.mp h
      cases h
      exact .engine htask hrun hstep
  | resume id =>
      cases h
      exact .resume
  | pass seconds =>
      cases h
      exact .pass

theorem moves?_cons (service : Service) (move : Move) (moves : List Move) :
    service.moves? (move :: moves) = (service.move? move).bind fun after => after.moves? moves := by
  rw [moves?, List.foldlM_cons]
  rfl

theorem moves?_append (service : Service) (first second : List Move) :
    service.moves? (first ++ second) = (service.moves? first).bind fun between => between.moves? second := by
  rw [moves?, List.foldlM_append]
  rfl

/-- What every move preserves holds at the end of every run. -/
theorem invariant_of_moves? {p : Service → Prop} (hstep : ∀ service move after, p service →
    service.Moves move after → p after) {moves : List Move} (hstart : p service)
    (hrun : service.moves? moves = some after) : p after := by
  induction moves generalizing service with
  | nil =>
      cases hrun
      exact hstart
  | cons move moves ih =>
      rw [moves?_cons] at hrun
      obtain ⟨between, hmove, hrun⟩ := Option.bind_eq_some_iff.mp hrun
      exact ih (hstep _ _ _ hstart (moves_of_move? hmove)) hrun

def eventsOf (service : Service) (id : Nat) : List Event := service.events.filter fun event => event.job == id

/-- A service that nothing has been asked of. -/
structure IsFresh (service : Service) : Prop where
  tasks : service.tasks = []
  events : service.events = []
  slot : service.slot = none

/-- Every job is known by its place and announces only its own events. -/
structure Speaks (service : Service) : Prop where
  tasks : ∀ {id : Nat} {task : Task}, service.tasks[id]? = some task → task.job.id = id ∧ task.job.point.Speaks id
  events : ∀ event ∈ service.events, event.job < service.tasks.length

/-- What a move makes of a task, with what is announced for its job in it. -/
inductive Evolves (service : Service) (move : Move) (id : Nat) (task : Task) : List Event → Task → Prop
  | rest {task' : Task} (hface : task'.face = task.face) (hmove : move.isStepOf id = false) :
      Evolves service move id task [] task'
  | cancel {task' : Task} (hmove : move = .cancel) (hslot : service.slot = some id)
      (hjob : task'.job = task.job) (hflag : task'.isCancelled = true) : Evolves service move id task [] task'
  | go {task' : Task} {request : Request} {answer : request.Answer} (hmove : move = .job id)
      (hgoes : Job.Goes task.isCancelled task.job request answer task'.job)
      (hflag : task'.isCancelled = task.isCancelled)
      (hanswer : ∃ between, service.answer id task request = some (answer, between)) :
      Evolves service move id task request.announced task'

/-- A job stays as it is or takes a step. -/
theorem Evolves.job_cases {move : Move} {told : List Event} {task' : Task}
    (h : service.Evolves move id task told task') :
    task'.job = task.job ∧ told = [] ∨
      move = .job id ∧ ∃ (request : Request) (answer : request.Answer),
        Job.Goes task.isCancelled task.job request answer task'.job ∧ told = request.announced := by
  cases h with
  | rest hface => exact .inl ⟨congrArg Prod.fst hface, rfl⟩
  | cancel _ _ hjob => exact .inl ⟨hjob, rfl⟩
  | go hmove hgoes => exact .inr ⟨hmove, _, _, hgoes, rfl⟩

theorem exists_face_eq {between : Service} (hfaces : between.tasks.map Task.face = service.tasks.map Task.face)
    (htask : service.tasks[id]? = some task) :
    ∃ task', between.tasks[id]? = some task' ∧ task'.face = task.face := by
  have hface := congrArg (fun faces => faces[id]?) hfaces
  simp only [List.getElem?_map, htask, Option.map_some] at hface
  exact Option.map_eq_some_iff.mp hface

theorem Moves.evolves {move : Move} (h : service.Moves move after) (hspeaks : service.Speaks)
    (htask : service.tasks[id]? = some task) :
    ∃ told task', after.tasks[id]? = some task' ∧ service.Evolves move id task told task' ∧
      after.eventsOf id = service.eventsOf id ++ told := by
  have hrest : ∀ {after : Service}, after.tasks.map Task.face = service.tasks.map Task.face →
      after.events = service.events → move.isStepOf id = false → ∃ told task', after.tasks[id]? = some task' ∧
        service.Evolves move id task told task' ∧ after.eventsOf id = service.eventsOf id ++ told := by
    intro after hfaces hevents hmove
    obtain ⟨task', htask', hface⟩ := exists_face_eq hfaces htask
    refine ⟨[], task', htask', .rest hface hmove, ?_⟩
    rw [eventsOf, hevents, List.append_nil]
    rfl
  cases h with
  | start hslot =>
      have hbound : id < service.tasks.length := (List.getElem?_eq_some_iff.mp htask).1
      refine ⟨[], task, ?_, .rest rfl rfl, (List.append_nil _).symm⟩
      rw [← htask]
      exact List.getElem?_append_left hbound
  | refuse => exact hrest rfl rfl rfl
  | cancelNothing => exact hrest rfl rfl rfl
  | @cancel active hslot =>
      by_cases hid : active = id
      · subst hid
        refine ⟨[], { task with isCancelled := true }, ?_, .cancel rfl hslot rfl rfl, (List.append_nil _).symm⟩
        rw [getElem?_update, if_pos rfl, htask, Option.map_some]
      · refine ⟨[], task, ?_, .rest rfl rfl, (List.append_nil _).symm⟩
        rw [getElem?_update, if_neg hid, htask]
  | @job other mover request answer between job hmover hgoes hanswer =>
      have hfaces := (answered_of_answer hanswer).faces
      have hevents := (answered_of_answer hanswer).events
      obtain ⟨task', htask', hface⟩ := exists_face_eq hfaces htask
      obtain ⟨hother, hspeaksMover⟩ := hspeaks.tasks hmover
      have hannounced := (hgoes.speaks (hother ▸ hspeaksMover)).2
      rw [hother] at hannounced
      have hevents' : (between.update other fun task => { task with job }).events =
          service.events ++ request.announced := hevents
      by_cases hid : other = id
      · subst hid
        cases hmover.symm.trans htask
        refine ⟨request.announced, { task' with job }, ?_, .go rfl hgoes (congrArg Prod.snd hface) ⟨_, hanswer⟩, ?_⟩
        · rw [getElem?_update, if_pos rfl, htask', Option.map_some]
        · rw [eventsOf, hevents', List.filter_append]
          refine congrArg _ (List.filter_eq_self.mpr fun event hevent => ?_)
          simpa using hannounced event hevent
      · refine ⟨[], task', ?_, .rest hface (by simpa [Move.isStepOf] using hid), ?_⟩
        · rw [getElem?_update, if_neg hid, htask']
        · rw [eventsOf, hevents', List.filter_append]
          refine congrArg _ (List.filter_eq_nil_iff.mpr fun event hevent => ?_)
          simpa [hannounced event hevent] using hid
  | engine => exact hrest (faces_update _ _ fun _ => rfl) rfl rfl
  | resume => exact hrest (faces_update _ _ fun _ => rfl) rfl rfl
  | pass => exact hrest rfl rfl rfl

theorem Moves.length_eq {move : Move} (h : service.Moves move after) (hmove : move.isStart = false) :
    after.tasks.length = service.tasks.length := by
  have hlength : ∀ {between : Service}, between.tasks.map Task.face = service.tasks.map Task.face →
      between.tasks.length = service.tasks.length := by
    intro between hfaces
    simpa using congrArg List.length hfaces
  cases h with
  | start => cases hmove
  | refuse => rfl
  | cancelNothing => rfl
  | cancel => exact length_update _ _ _
  | job htask hgoes hanswer => exact (length_update _ _ _).trans (hlength (answered_of_answer hanswer).faces)
  | engine => exact length_update _ _ _
  | resume => exact length_update _ _ _
  | pass => rfl

theorem Moves.length_le {move : Move} (h : service.Moves move after) :
    service.tasks.length ≤ after.tasks.length := by
  cases move with
  | start request => cases h <;> simp
  | _ => exact Nat.le_of_eq (h.length_eq rfl).symm

/-- A task that is there behind a move was there before it, or is that of the job just started. -/
theorem Moves.task_cases {move : Move} {task' : Task} (h : service.Moves move after)
    (htask' : after.tasks[id]? = some task') :
    (∃ task, service.tasks[id]? = some task) ∨
      id = service.tasks.length ∧ service.slot = none ∧ ∃ request, move = .start request ∧
        task' = { job := { id, request, settingsFile := service.settingsFile } } := by
  have hold : id < service.tasks.length → ∃ task, service.tasks[id]? = some task := fun hbound =>
    ⟨_, List.getElem?_eq_getElem hbound⟩
  have hbound : id < after.tasks.length := (List.getElem?_eq_some_iff.mp htask').1
  cases move with
  | start request =>
      cases h with
      | start hslot =>
          rcases Nat.lt_or_ge id service.tasks.length with hlt | hge
          · exact Or.inl (hold hlt)
          · have hid : id = service.tasks.length := by
              rw [List.length_append, List.length_singleton] at hbound
              omega
            subst hid
            rw [List.getElem?_append_right (Nat.le_refl _), Nat.sub_self] at htask'
            cases htask'
            exact Or.inr ⟨rfl, hslot, _, rfl, rfl⟩
      | refuse => exact Or.inl ⟨task', htask'⟩
  | _ =>
      rw [h.length_eq rfl] at hbound
      exact Or.inl (hold hbound)

/-- What is true of a job that has just been started, and is kept by the steps of jobs, is kept by a
move. -/
theorem Moves.forall_job {move : Move} {q : Nat → Job → Prop} (h : service.Moves move after) (hspeaks : service.Speaks)
    (hall : ∀ {id : Nat} {task : Task}, service.tasks[id]? = some task → q id task.job)
    (hnew : ∀ id request, q id { id, request, settingsFile := service.settingsFile })
    (hgo : ∀ {id : Nat} {task : Task} {request : Request} {answer : request.Answer} {between : Service} {job : Job},
      service.tasks[id]? = some task → service.answer id task request = some (answer, between) →
        Job.Goes task.isCancelled task.job request answer job → q id job)
    {task' : Task} (htask' : after.tasks[id]? = some task') : q id task'.job := by
  rcases h.task_cases htask' with ⟨task, htask⟩ | ⟨-, -, request, -, rfl⟩
  · obtain ⟨told, task'', htask'', hevolves, -⟩ := h.evolves hspeaks htask
    cases htask''.symm.trans htask'
    cases hevolves with
    | rest hface =>
        have hjob : task'.job = task.job := congrArg Prod.fst hface
        rw [hjob]
        exact hall htask
    | cancel _ _ hjob =>
        rw [hjob]
        exact hall htask
    | go _ hgoes _ hanswer =>
        obtain ⟨between, hanswer⟩ := hanswer
        exact hgo htask hanswer hgoes
  · exact hnew id request

theorem Moves.speaks {move : Move} (h : service.Moves move after) (hspeaks : service.Speaks) : after.Speaks where
  tasks := by
    refine h.forall_job hspeaks (q := fun id job => job.id = id ∧ job.point.Speaks id) hspeaks.tasks
      (fun _ _ => ⟨rfl, trivial⟩) ?_
    intro id task request answer between job htask _ hgoes
    obtain ⟨hid, hpoint⟩ := hspeaks.tasks htask
    exact ⟨hgoes.keeps.id.trans hid, hid ▸ (hgoes.speaks (hid ▸ hpoint)).1⟩
  events := by
    intro event hevent
    have hlength := h.length_le
    have hold : event ∈ service.events → event.job < after.tasks.length := fun hmem =>
      Nat.lt_of_lt_of_le (hspeaks.events event hmem) hlength
    cases h with
    | @job other mover request answer between job hmover hgoes hanswer =>
        have hevents : event ∈ between.events := hevent
        rw [(answered_of_answer hanswer).events, List.mem_append] at hevents
        rcases hevents with hmem | hmem
        · exact hold hmem
        · obtain ⟨hother, hpoint⟩ := hspeaks.tasks hmover
          have hbound : other < service.tasks.length := (List.getElem?_eq_some_iff.mp hmover).1
          rw [(hgoes.speaks (hother ▸ hpoint)).2 event hmem, hother]
          exact Nat.lt_of_lt_of_le hbound hlength
    | _ => exact hold hevent

theorem IsFresh.speaks (h : service.IsFresh) : service.Speaks where
  tasks := by
    intro id task htask
    rw [h.tasks] at htask
    cases htask
  events := by
    intro event hevent
    rw [h.events] at hevent
    cases hevent

/-- Among whatever else goes on, a job goes through steps of its own, and its events are what it
announces in them. -/
theorem reaches_of_moves? (hspeaks : service.Speaks) (htask : service.tasks[id]? = some task) {moves : List Move}
    {final : Service} (hrun : service.moves? moves = some final) :
    ∃ told task', final.tasks[id]? = some task' ∧ task.job.Reaches told task'.job ∧
      final.eventsOf id = service.eventsOf id ++ told := by
  have hstart : task.job.Reaches [] task.job := .refl
  refine (invariant_of_moves? (p := fun between => between.Speaks ∧ ∃ told task', between.tasks[id]? = some task' ∧
    task.job.Reaches told task'.job ∧ between.eventsOf id = service.eventsOf id ++ told) ?_
    ⟨hspeaks, [], task, htask, hstart, (List.append_nil _).symm⟩ hrun).2
  rintro between move after ⟨hbetween, told, task', htask', hreaches, hevents⟩ hmove
  obtain ⟨more, task'', htask'', hevolves, hmore⟩ := hmove.evolves hbetween htask'
  rw [hevents, List.append_assoc] at hmore
  refine ⟨hmove.speaks hbetween, told ++ more, task'', htask'', ?_, hmore⟩
  rcases hevolves.job_cases with ⟨hjob, rfl⟩ | ⟨-, request, answer, hgoes, rfl⟩
  · rw [hjob, List.append_nil]
    exact hreaches
  · exact .go hreaches hgoes

theorem outcome?_eq_some {outcome : Outcome} (h : service.outcome? id = some outcome)
    (htask : service.tasks[id]? = some task) : task.job.point = .ended outcome := by
  rw [outcome?, htask] at h
  change task.outcome? = some outcome at h
  unfold Task.outcome? at h
  split at h
  · rename_i hpoint
    rw [hpoint, Option.some.inj h]
  · cases h

theorem move?_start {request : ExportRequest} (hslot : service.slot = none) :
    service.move? (.start request) = some { service with
      slot := some service.tasks.length
      tasks := service.tasks ++
        [{ job := { id := service.tasks.length, request, settingsFile := service.settingsFile } }] } := by
  unfold move? start
  rw [hslot]
  rfl

/-- A job that has been started is the last one, and nothing has been announced for it. -/
theorem start_eq_ok {request : ExportRequest} {started : Service} (h : service.start request = .ok (id, started)) :
    service.slot = none ∧ id = service.tasks.length ∧ service.move? (.start request) = some started ∧
      started.slot = some id ∧ started.events = service.events ∧
      started.tasks[id]? = some { job := { id, request, settingsFile := service.settingsFile } } := by
  have hmove : service.move? (.start request) = some started := by
    rw [move?, h]
  unfold start at h
  cases hslot : service.slot with
  | none =>
      rw [hslot] at h
      cases h
      refine ⟨rfl, rfl, hmove, rfl, rfl, ?_⟩
      exact List.getElem?_concat_length
  | some other =>
      rw [hslot] at h
      cases h

end Service

end Segue
