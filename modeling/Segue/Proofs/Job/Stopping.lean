import Segue.Proofs.Job.Fate
import Segue.Proofs.Job.History

/-!
A job that has been asked to stop. Main statement: unless it is settled that it completes, it never
does; it never has to wait again, and it ends within a number of steps that is known.
-/

namespace Segue

/-- The most steps that a run of the engine needs to stop and to be cleaned up after. -/
def EngineStage.stepsLeft : EngineStage → Nat
  | .checkBefore | .checkAfter _ | .stop => 5
  | .hear | .await => 6
  | .start => 7

/-- The most steps that a job needs to end once it has been asked to stop. -/
def Point.stepsLeft : Point → Nat
  | .announce _ next => next.stepsLeft + 1
  | .checkSource _ rest _ => rest.length + 7
  | .checkEngine | .makeDirectory .. => 6
  | .enter _ | .beforeMeasuring _ | .afterMeasuring _ => 5
  | .engine _ _ stage => stage.stepsLeft
  | .writeSheet => 8
  | .readSettings _ => 7
  | .stampSettings _ _ => 6
  | .makeSettingsDirectory _ _ => 5
  | .writeSettings _ _ | .removeOutput => 4
  | .release _ => 3
  | .close _ => 1
  | .ended _ => 0

theorem Point.stepsLeft_of_isCheck {point : Point} (h : point.isCheck = true) : point.stepsLeft = 5 := by
  rcases Point.check_cases h with ⟨_, rfl⟩ | ⟨_, rfl⟩ | ⟨_, rfl⟩ | ⟨_, _, rfl⟩ | ⟨_, _, _, rfl⟩ <;> rfl

namespace Job

variable {job job' : Job} {request : Request} {answer : request.Answer}

theorem stepsLeft_checkSources (job : Job) (tracks : List (Track Float)) (missing : List String) :
    (job.checkSources tracks missing).point.stepsLeft ≤ tracks.length + 6 := by
  unfold checkSources
  split
  · exact Nat.le_of_eq (Nat.add_right_comm _ 1 6).symm
  · split <;> simp [fail, goTo, Point.stepsLeft]

theorem stepsLeft_persist (job : Job) : job.persist.point.stepsLeft ≤ 7 := by
  unfold persist
  split <;> simp [complete, goTo, Point.stepsLeft]

theorem stepsLeft_storeSettings (job : Job) (file : Path) (text : String) :
    (job.storeSettings file text).point.stepsLeft ≤ 5 := by
  unfold storeSettings
  split <;> simp [goTo, Point.stepsLeft]

/-- Every step of a job that has been asked to stop brings it nearer to its end. -/
theorem Goes.stepsLeft_lt (h : Goes true job request answer job') : job'.point.stepsLeft < job.point.stepsLeft := by
  cases h with
  | halt hcheck =>
      rw [Point.stepsLeft_of_isCheck hcheck]
      exact Nat.lt_succ_self 4
  | announce hpoint =>
      rw [hpoint]
      exact Nat.lt_succ_self _
  | checkSource hpoint found =>
      rw [hpoint]
      exact Nat.lt_succ_of_le (stepsLeft_checkSources job _ _)
  | sheetWritten hpoint =>
      rw [hpoint]
      exact Nat.lt_succ_of_le (stepsLeft_persist job)
  | settingsStamped hpoint =>
      rw [hpoint]
      exact Nat.lt_succ_of_le (stepsLeft_storeSettings job _ _)
  -- steps that are taken only without the flag
  | enter _ hcancelled | measure _ hcancelled | measured _ hcancelled | beforeStart _ hcancelled
  | heard _ hcancelled | heardAll _ hcancelled | awaited _ hcancelled | finishRun _ hcancelled => cases hcancelled
  | _ =>
      rw [‹job.point = _›]
      exact Nat.le_of_ble_eq_true rfl

/-- A job that is not at its end asks for something. -/
theorem ended_of_next {outcome : Outcome} (h : job.next = .ended outcome) : job.point = .ended outcome := by
  rw [next] at h
  cases hpoint : job.point with
  | ended =>
      rw [hpoint] at h
      cases h
      rfl
  | engine use tail stage =>
      rw [hpoint] at h
      cases stage <;> cases h
  | _ =>
      rw [hpoint] at h
      cases h

end Job

/-- Whether the answer may have to wait for the engine. -/
def Request.awaits : Request → Bool
  | .hearEngine | .awaitEngine => true
  | _ => false

namespace Service

variable {service : Service} {id : Nat} {task : Task}

/-- A job that has been asked to stop is answered at once, whatever it asks for, and so is one that
asks for nothing that its engine has to do. -/
theorem answer_isSome {request : Request} (hready : task.isCancelled = true ∨ request.awaits = false) :
    (service.answer id task request).isSome = true := by
  cases request with
  | hearEngine =>
      have hflag : task.isCancelled = true := hready.resolve_right nofun
      change (service.hear id task).isSome = true
      rw [hear, if_pos hflag]
      rfl
  | awaitEngine =>
      have hflag : task.isCancelled = true := hready.resolve_right nofun
      change (service.await id task).isSome = true
      rw [await, if_pos hflag]
      rfl
  | startEngine arguments =>
      rw [answer_startEngine]
      split <;> rfl
  | _ => rfl

/-- Such a job never waits. -/
theorem stepJob?_isSome (htask : service.tasks[id]? = some task)
    (hready : ∀ {request : Request} {resume : request.Answer → Job}, task.job.next = .ask request resume →
      task.isCancelled = true ∨ request.awaits = false) (hgoing : service.outcome? id = none) :
    (service.stepJob? id).isSome = true := by
  rw [stepJob?_of_task htask]
  cases hnext : task.job.next with
  | ended outcome =>
      have houtcome : service.outcome? id = some outcome := by
        rw [outcome?, htask]
        change task.outcome? = some outcome
        rw [Task.outcome?, Job.ended_of_next hnext]
      rw [houtcome] at hgoing
      cases hgoing
  | ask request resume =>
      dsimp only
      rw [Option.isSome_map]
      exact answer_isSome (hready hnext)

/-- What a run makes of a job that has been asked to stop when it was not settled that it completes. -/
theorem stopping_of_moves? {moves : List Move} {final : Service} (hspeaks : service.Speaks)
    (htask : service.tasks[id]? = some task) (hflag : task.isCancelled = true)
    (hfate : task.job.point.fate? ≠ some .complete) (hrun : service.moves? moves = some final) :
    ∃ task', final.tasks[id]? = some task' ∧ task'.isCancelled = true ∧ task'.job.point.fate? ≠ some .complete ∧
      moves.countP (Move.isStepOf id) + task'.job.point.stepsLeft ≤ task.job.point.stepsLeft := by
  induction moves generalizing service task with
  | nil =>
      cases hrun
      exact ⟨task, htask, hflag, hfate, by simp⟩
  | cons move moves ih =>
      rw [moves?_cons] at hrun
      obtain ⟨after, hmove, hrun⟩ := Option.bind_eq_some_iff.mp hrun
      have hmoves := moves_of_move? hmove
      obtain ⟨told, between, hbetween, hevolves, -⟩ := hmoves.evolves hspeaks htask
      have hstep : between.isCancelled = true ∧ between.job.point.fate? ≠ some .complete ∧
          (if Move.isStepOf id move then 1 else 0) + between.job.point.stepsLeft ≤ task.job.point.stepsLeft := by
        cases hevolves with
        | rest hface hother =>
            have hjob : between.job = task.job := congrArg Prod.fst hface
            have hsame : between.isCancelled = task.isCancelled := congrArg Prod.snd hface
            rw [hsame, hjob, hother]
            exact ⟨hflag, hfate, by simp⟩
        | cancel hcancel _ hjob hset =>
            rw [hset, hjob, hcancel]
            exact ⟨rfl, hfate, by simp [Move.isStepOf]⟩
        | go hgo hgoes hsame =>
            rw [hflag] at hgoes
            have hlt := hgoes.stepsLeft_lt
            refine ⟨hsame.trans hflag, hgoes.fate?_ne_complete (.inl rfl) hfate, ?_⟩
            rw [hgo, Move.isStepOf, if_pos (by simp)]
            omega
      obtain ⟨hflag', hfate', hsteps⟩ := hstep
      obtain ⟨task', htask', hflag'', hfate'', hcount⟩ := ih (hmoves.speaks hspeaks) hbetween hflag' hfate' hrun
      refine ⟨task', htask', hflag'', hfate'', ?_⟩
      rw [List.countP_cons]
      omega

end Service

end Segue
