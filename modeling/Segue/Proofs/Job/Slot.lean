import Segue.Proofs.Job.Runs

/-!
What the slot and the engines say of the jobs. Main statement: a job that does not occupy the slot
has nothing left to do but to tell of its end, and an engine runs only for a job that waits for it.
-/

namespace Segue

/-- Whether nothing is left to a job but to tell of its end. -/
def Point.isOver : Point → Bool
  | .announce _ next => next.isOver
  | .close _ | .ended _ => true
  | _ => false

/-- Whether the engine may be running for a job. -/
def Point.runsEngine : Point → Bool
  | .announce _ next => next.runsEngine
  | .engine _ _ .hear | .engine _ _ .await | .engine _ _ .stop => true
  | _ => false

theorem Point.not_isOver_of_isCheck {point : Point} (h : point.isCheck = true) : point.isOver = false := by
  rcases Point.check_cases h with ⟨_, rfl⟩ | ⟨_, rfl⟩ | ⟨_, rfl⟩ | ⟨_, _, rfl⟩ | ⟨_, _, _, rfl⟩ <;> rfl

theorem Point.not_runsEngine_of_isCheck {point : Point} (h : point.isCheck = true) : point.runsEngine = false := by
  rcases Point.check_cases h with ⟨_, rfl⟩ | ⟨_, rfl⟩ | ⟨_, rfl⟩ | ⟨_, _, rfl⟩ | ⟨_, _, _, rfl⟩ <;> rfl

namespace Job

variable {isCancelled : Bool} {job job' : Job} {request : Request} {answer : request.Answer}

theorem Goes.isOver (h : Goes isCancelled job request answer job') (hover : job.point.isOver = true) :
    job'.point.isOver = true := by
  cases h with
  | announce hpoint =>
      rw [hpoint] at hover
      exact hover
  | closed => rfl
  | halt hcheck =>
      rw [Point.not_isOver_of_isCheck hcheck] at hover
      cases hover
  | _ =>
      rw [‹job.point = _›] at hover
      cases hover

theorem Goes.isOver_of_isRelease (h : Goes isCancelled job request answer job')
    (hrelease : request.isRelease = true) : job'.point.isOver = true := by
  cases h with
  | released | closed => rfl
  | _ => cases hrelease

theorem runsEngine_hear (job : Job) (use : EngineUse) (tail : DiagnosticTail) (piece : List Char) (elapsed : Float) :
    (job.hear use tail piece elapsed).point.runsEngine = true := by
  unfold hear
  cases use with
  | measuring => rfl
  | encoding =>
      dsimp only
      split
      · rfl
      · split <;> rfl

theorem Goes.runsEngine (h : Goes isCancelled job request answer job') {scripts : List EngineScript}
    {run : Option EngineRun} (hbefore : run.isSome = true → job.point.runsEngine = true)
    (hrunning : (request.runAfter scripts run answer).isSome = true) : job'.point.runsEngine = true := by
  cases h with
  | announce hpoint =>
      have hruns := hbefore hrunning
      rw [hpoint] at hruns
      exact hruns
  | started | heardAll | stopHearing | stopAwaiting => rfl
  | heard => exact runsEngine_hear job _ _ _ _
  | awaited | stopped => cases hrunning
  | halt hcheck =>
      have hruns := hbefore hrunning
      rw [Point.not_runsEngine_of_isCheck hcheck] at hruns
      cases hruns
  | _ =>
      have hruns := hbefore hrunning
      rw [‹job.point = _›] at hruns
      cases hruns

end Job

namespace Service

variable {service after : Service} {id : Nat} {task : Task}

/-- Who does not occupy the slot is done with everything but its last event, and engines run only
for jobs that wait for them. -/
structure Orderly (service : Service) : Prop where
  slot : ∀ {id : Nat} {task : Task}, service.tasks[id]? = some task →
    service.slot = some id ∨ task.job.point.isOver = true
  running : ∀ {id : Nat} {task : Task}, service.tasks[id]? = some task → task.run.isSome = true →
    task.job.point.runsEngine = true

theorem Orderly.update (h : service.Orderly) {change : Task → Task} (hjob : ∀ task, (change task).job = task.job)
    (hrun : ∀ task, service.tasks[id]? = some task → (change task).run.isSome = true → task.run.isSome = true) :
    (service.update id change).Orderly := by
  have hback : ∀ {other : Nat} {task' : Task}, (service.update id change).tasks[other]? = some task' →
      ∃ task, service.tasks[other]? = some task ∧ task'.job = task.job ∧
        (task'.run.isSome = true → task.run.isSome = true) := by
    intro other task' htask'
    rw [getElem?_update] at htask'
    split at htask'
    · rename_i hid
      subst hid
      obtain ⟨task, htask, rfl⟩ := Option.map_eq_some_iff.mp htask'
      exact ⟨task, htask, hjob task, hrun task htask⟩
    · exact ⟨task', htask', rfl, fun hrun => hrun⟩
  constructor
  · intro other task' htask'
    obtain ⟨task, htask, hsame, -⟩ := hback htask'
    rw [hsame]
    exact h.slot htask
  · intro other task' htask' hrunning
    obtain ⟨task, htask, hsame, hsome⟩ := hback htask'
    rw [hsame]
    exact h.running htask (hsome hrunning)

theorem Moves.orderly {move : Move} (hmove : service.Moves move after) (h : service.Orderly) : after.Orderly := by
  cases hmove with
  | refuse | cancelNothing => exact h
  | pass => exact ⟨h.slot, h.running⟩
  | cancel hslot => exact h.update (fun _ => rfl) fun _ _ hrun => hrun
  | resume =>
      refine h.update (fun _ => rfl) fun task _ hrun => ?_
      rwa [Option.isSome_map] at hrun
  | @engine id task run run' files htask hrun hstep =>
      have hfiles : Orderly { service with files } := ⟨h.slot, h.running⟩
      refine hfiles.update (fun _ => rfl) fun task' htask' _ => ?_
      cases htask.symm.trans htask'
      rw [hrun]
      rfl
  | @start request hslot =>
      have hnew : service.Moves (.start request) _ := .start hslot
      have hcases : ∀ {id : Nat} {task : Task}, (service.tasks ++
          [{ job := { id := service.tasks.length, request, settingsFile := service.settingsFile } }])[id]? =
          some task → service.tasks[id]? = some task ∨ id = service.tasks.length ∧ task.run = none := by
        intro id task htask
        rcases hnew.task_cases htask with ⟨old, hold⟩ | ⟨hid, -, -, -, rfl⟩
        · rw [List.getElem?_append_left (List.getElem?_eq_some_iff.mp hold).1] at htask
          exact .inl htask
        · exact .inr ⟨hid, rfl⟩
      constructor
      · intro id task htask
        rcases hcases htask with hold | ⟨rfl, -⟩
        · rcases h.slot hold with hmine | hover
          · rw [hslot] at hmine
            cases hmine
          · exact .inr hover
        · exact .inl rfl
      · intro id task htask hrunning
        rcases hcases htask with hold | ⟨-, hnone⟩
        · exact h.running hold hrunning
        · rw [hnone] at hrunning
          cases hrunning
  | @job mover task request answer between job htask hgoes hanswer =>
      have hslot : (between.update mover fun task => { task with job }).slot = _ := (answered_of_answer hanswer).slot
      constructor
      · intro id task' htask'
        rw [hslot]
        rcases tasks_of_answer htask hanswer htask' with ⟨rfl, rfl, -⟩ | ⟨hid, hold⟩
        · -- the slot is emptied by nothing but a release, and who releases it is done
          by_cases hrelease : request.isRelease = true
          · exact .inr (hgoes.isOver_of_isRelease hrelease)
          · rw [if_neg fun hboth => hrelease hboth.1]
            exact (h.slot htask).imp_right hgoes.isOver
        · refine (h.slot hold).imp_left fun hmine => ?_
          rw [hmine, if_neg fun hboth => hid (Option.some.inj hboth.2).symm]
      · intro id task' htask' hrunning
        rcases tasks_of_answer htask hanswer htask' with ⟨rfl, rfl, hafter⟩ | ⟨-, hold⟩
        · rw [hafter] at hrunning
          exact hgoes.runsEngine (h.running htask) hrunning
        · exact h.running hold hrunning

theorem IsFresh.orderly (h : service.IsFresh) : service.Orderly where
  slot := by
    intro id task htask
    rw [h.tasks] at htask
    cases htask
  running := by
    intro id task htask
    rw [h.tasks] at htask
    cases htask

/-- **One job at a time.** At every moment of every run, all jobs but that in the slot are done with
everything but their last event, and engines run only for jobs that wait for them. -/
theorem orderly_of_moves? {initial final : Service} {moves : List Move} (hfresh : initial.IsFresh)
    (hrun : initial.moves? moves = some final) : final.Orderly :=
  invariant_of_moves? (p := Orderly) (fun _ _ _ horderly hmove => hmove.orderly horderly) hfresh.orderly hrun

end Service

end Segue
