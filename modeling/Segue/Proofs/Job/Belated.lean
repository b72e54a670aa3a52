import Segue.Proofs.Job.Fate
import Segue.Proofs.Job.Runs

/-!
A job that is asked to stop when it is settled how it ends. Main statement: whatever else happens,
leaving out such calls makes no difference but to what is kept about them.
-/

namespace Segue

namespace Service

variable {service : Service} {id : Nat} {task : Task}

/-- The service with a job asked to stop. -/
def flag (service : Service) (id : Nat) : Service := service.update id fun task => { task with isCancelled := true }

theorem cancel_of_slot (hslot : service.slot = some id) : service.cancel = (true, service.flag id) := by
  rw [cancel, hslot]
  rfl

theorem update_comm {first second : Task → Task} (h : ∀ task, first (second task) = second (first task))
    (service : Service) (id other : Nat) :
    (service.update id first).update other second = (service.update other second).update id first := by
  have htasks : (service.tasks.modify id first).modify other second =
      (service.tasks.modify other second).modify id first := by
    by_cases hid : id = other
    · subst hid
      have hcomp : second ∘ first = first ∘ second := funext fun task => (h task).symm
      rw [List.modify_modify_eq, List.modify_modify_eq, hcomp]
    · rw [List.modify_modify_ne _ _ _ hid]
  unfold update
  rw [htasks]

theorem update_flag {change : Task → Task}
    (h : ∀ task, change { task with isCancelled := true } = { change task with isCancelled := true })
    (service : Service) (id other : Nat) :
    (service.flag id).update other change = (service.update other change).flag id :=
  (update_comm (fun task => (h task).symm) service id other)

theorem flag_flag (service : Service) (id : Nat) : (service.flag id).flag id = service.flag id := by
  unfold flag update
  rw [List.modify_modify_eq]
  rfl

theorem getElem?_flag (service : Service) (id other : Nat) :
    (service.flag id).tasks[other]? =
      if id = other then service.tasks[other]?.map (fun task => { task with isCancelled := true })
      else service.tasks[other]? := getElem?_update service id _ other

theorem withFiles_flag (service : Service) (id : Nat) (files : Except FileError FileTree) :
    (service.flag id).withFiles files = (service.withFiles files).flag id := by
  cases files <;> rfl

theorem release_flag (service : Service) (id other : Nat) :
    (service.flag id).release other = (service.release other).flag id := by
  rw [release_eq, release_eq]
  rfl

/-- The service answers a job as it would without the flag. -/
theorem answer_flag (service : Service) (id other : Nat) (task : Task) (request : Request) :
    (service.flag id).answer other task request =
      (service.answer other task request).map fun answered => (answered.1, answered.2.flag id) := by
  cases request with
  | hearEngine =>
      change (service.flag id).hear other task = (service.hear other task).map _
      unfold hear
      split
      · rfl
      · split
        · rfl
        · split
          · exact congrArg (fun after => some (Heard.piece _ _, after)) (update_flag (fun _ => rfl) service id other)
          · split <;> rfl
  | awaitEngine =>
      change (service.flag id).await other task = (service.await other task).map _
      unfold await
      split
      · rfl
      · split
        · rfl
        · split
          · exact congrArg (fun after => some (some _, after)) (update_flag (fun _ => rfl) service id other)
          · rfl
  | startEngine arguments =>
      have hsame : (service.flag id).engine.startable arguments (service.flag id).files =
          service.engine.startable arguments service.files := rfl
      rw [answer_startEngine, answer_startEngine, hsame]
      cases service.engine.startable arguments service.files with
      | ok =>
          exact congrArg (fun after => some (Except.ok (), after))
            (update_flag (fun _ => rfl) { service with scripts := _, invocations := _ } id other)
      | error => rfl
  | stopEngine => exact congrArg (fun after => some ((), after)) (update_flag (fun _ => rfl) service id other)
  | removeOutput path =>
      change some ((), (service.flag id).withFiles (service.files.remove path)) = _
      rw [withFiles_flag]
      rfl
  | writeSheet path text | writeSettings path text =>
      change some ((), (service.flag id).withFiles (service.files.write path text)) = _
      rw [withFiles_flag]
      rfl
  | releaseSlot =>
      change some ((), (service.flag id).release other) = _
      rw [release_flag]
      rfl
  | _ => rfl

theorem answer_of_not_looks {request : Request} (h : request.looks = false) (task task' : Task) :
    service.answer id task request = service.answer id task' request := by
  cases request with
  | isCancelled | hearEngine | awaitEngine => cases h
  | _ => rfl

theorem modify_concat {tasks : List Task} (hid : id < tasks.length) (change : Task → Task) (new : Task) :
    (tasks ++ [new]).modify id change = tasks.modify id change ++ [new] := by
  induction tasks generalizing id with
  | nil => cases hid
  | cons task tasks ih =>
      cases id with
      | zero => rfl
      | succ id =>
          have hid' : id < tasks.length := Nat.lt_of_succ_lt_succ hid
          simp only [List.cons_append, List.modify_succ_cons, ih hid']

theorem start_flag (hid : id < service.tasks.length) (request : ExportRequest) :
    (service.flag id).move? (.start request) = (service.move? (.start request)).map fun after => after.flag id := by
  cases hslot : service.slot with
  | some other =>
      have hflagged : (service.flag id).slot = some other := hslot
      unfold move? start
      rw [hslot, hflagged]
      rfl
  | none =>
      have hflagged : (service.flag id).slot = none := hslot
      have hlength : (service.flag id).tasks.length = service.tasks.length := length_update _ _ _
      rw [move?_start hslot, move?_start hflagged, hlength]
      have htasks := modify_concat hid (fun task => { task with isCancelled := true })
        { job := { id := service.tasks.length, request, settingsFile := service.settingsFile } }
      exact congrArg (fun tasks => some { service with slot := some service.tasks.length, tasks }) htasks.symm

/-- What of the flag a task shows. -/
theorem exists_flagged {other : Nat} {mover : Task} (hmover : service.tasks[other]? = some mover) (id : Nat) :
    ∃ mover', (service.flag id).tasks[other]? = some mover' ∧ mover'.job = mover.job ∧ mover'.run = mover.run ∧
      (id ≠ other → mover' = mover) := by
  rw [getElem?_flag, hmover]
  by_cases hid : id = other
  · rw [if_pos hid]
    exact ⟨_, rfl, rfl, rfl, fun hne => (hne hid).elim⟩
  · rw [if_neg hid]
    exact ⟨mover, rfl, rfl, rfl, fun _ => rfl⟩

theorem getElem?_flag_none {other : Nat} (hnone : service.tasks[other]? = none) (id : Nat) :
    (service.flag id).tasks[other]? = none := by
  rw [getElem?_flag, hnone]
  split <;> rfl

theorem stepJob?_flag (htask : service.tasks[id]? = some task) (hfate : task.job.point.fate?.isSome = true)
    (other : Nat) : (service.flag id).stepJob? other = (service.stepJob? other).map fun after => after.flag id := by
  cases hmover : service.tasks[other]? with
  | none =>
      unfold stepJob?
      rw [hmover, getElem?_flag_none hmover]
      rfl
  | some mover =>
      obtain ⟨mover', hmover', hjob, -, hother⟩ := exists_flagged hmover id
      rw [stepJob?_of_task hmover, stepJob?_of_task hmover', hjob]
      cases hnext : mover.job.next with
      | ended => rfl
      | ask request resume =>
          have hsame : service.answer other mover' request = service.answer other mover request := by
            by_cases hid : id = other
            · subst hid
              cases htask.symm.trans hmover
              exact answer_of_not_looks (Job.looks_of_next hnext hfate) _ _
            · rw [hother hid]
          dsimp only
          rw [answer_flag, hsame]
          cases service.answer other mover request with
          | none => rfl
          | some answered => exact congrArg some (update_flag (fun _ => rfl) answered.2 id other)

theorem stepEngine?_flag (service : Service) (id other : Nat) :
    (service.flag id).stepEngine? other = (service.stepEngine? other).map fun after => after.flag id := by
  unfold stepEngine?
  cases hmover : service.tasks[other]? with
  | none =>
      rw [getElem?_flag_none hmover]
      rfl
  | some mover =>
      obtain ⟨mover', hmover', -, hrun, -⟩ := exists_flagged hmover id
      rw [hmover']
      change (mover'.run.bind _) = (mover.run.bind _ : Option Service).map _
      rw [hrun]
      cases mover.run with
      | none => rfl
      | some run =>
          change ((run.step? service.files).bind _) = ((run.step? service.files).bind _ : Option Service).map _
          cases run.step? service.files with
          | none => rfl
          | some stepped =>
              exact congrArg some (update_flag (fun _ => rfl) { service with files := stepped.2 } id other)

/-- Once it is settled how a job ends, every move is the same whether the job has been asked to stop
or not. -/
theorem move?_flag (htask : service.tasks[id]? = some task) (hfate : task.job.point.fate?.isSome = true)
    (move : Move) : (service.flag id).move? move = (service.move? move).map fun after => after.flag id := by
  cases move with
  | start request => exact start_flag (List.getElem?_eq_some_iff.mp htask).1 request
  | cancel =>
      change some (service.flag id).cancel.2 = some (service.cancel.2.flag id)
      cases hslot : service.slot with
      | none =>
          have hflagged : (service.flag id).slot = none := hslot
          rw [cancel, cancel, hslot, hflagged]
      | some other =>
          have hflagged : (service.flag id).slot = some other := hslot
          rw [cancel_of_slot hslot, cancel_of_slot hflagged]
          exact congrArg some (update_flag (fun _ => rfl) service id other)
  | job other => exact stepJob?_flag htask hfate other
  | engine other => exact stepEngine?_flag service id other
  | resume other => exact congrArg some (update_flag (fun _ => rfl) service id other)
  | pass => rfl

theorem Moves.fate? {after : Service} {move : Move} (hmoves : service.Moves move after) (hspeaks : service.Speaks)
    (htask : service.tasks[id]? = some task) (hfate : task.job.point.fate?.isSome = true) :
    ∃ task', after.tasks[id]? = some task' ∧ task'.job.point.fate?.isSome = true := by
  obtain ⟨told, task', htask', hevolves, -⟩ := hmoves.evolves hspeaks htask
  refine ⟨task', htask', ?_⟩
  rcases hevolves.job_cases with ⟨hjob, -⟩ | ⟨-, request, answer, hgoes, -⟩
  · rw [hjob]
    exact hfate
  · obtain ⟨phase, hphase⟩ := Option.isSome_iff_exists.mp hfate
    rw [hgoes.fate?_eq hphase]
    rfl

theorem fate?_of_moves? {moves : List Move} {final : Service} (hspeaks : service.Speaks)
    (htask : service.tasks[id]? = some task) (hfate : task.job.point.fate?.isSome = true)
    (hrun : service.moves? moves = some final) :
    ∃ task', final.tasks[id]? = some task' ∧ task'.job.point.fate?.isSome = true := by
  refine (invariant_of_moves? (p := fun between => between.Speaks ∧ ∃ task', between.tasks[id]? = some task' ∧
    task'.job.point.fate?.isSome = true) ?_ ⟨hspeaks, task, htask, hfate⟩ hrun).2
  rintro between move after ⟨hbetween, task', htask', hfate'⟩ hmoves
  exact ⟨hmoves.speaks hbetween, hmoves.fate? hbetween htask' hfate'⟩

theorem moves?_flag (hspeaks : service.Speaks) (htask : service.tasks[id]? = some task)
    (hfate : task.job.point.fate?.isSome = true) (moves : List Move) :
    (service.flag id).moves? moves = (service.moves? moves).map fun final => final.flag id := by
  induction moves generalizing service task with
  | nil => rfl
  | cons move moves ih =>
      rw [moves?_cons, moves?_cons, move?_flag htask hfate]
      cases hmove : service.move? move with
      | none => rfl
      | some after =>
          have hmoves := moves_of_move? hmove
          obtain ⟨task', htask', hfate'⟩ := hmoves.fate? hspeaks htask hfate
          exact ih (hmoves.speaks hspeaks) htask' hfate'

/-- Moves without some of the calls that ask a job to stop while it occupies the slot. -/
inductive LeavesOut (id : Nat) : Service → List Move → List Move → Prop
  | done {service : Service} : LeavesOut id service [] []
  | keep {service after : Service} {move : Move} {moves fewer : List Move} (hmove : service.move? move = some after)
      (h : LeavesOut id after moves fewer) : LeavesOut id service (move :: moves) (move :: fewer)
  | skip {service : Service} {moves fewer : List Move} (hslot : service.slot = some id)
      (h : LeavesOut id service.cancel.2 moves fewer) : LeavesOut id service (.cancel :: moves) fewer

theorem LeavesOut.refl {moves : List Move} {final : Service} (hrun : service.moves? moves = some final) :
    LeavesOut id service moves moves := by
  induction moves generalizing service with
  | nil => exact .done
  | cons move moves ih =>
      rw [moves?_cons] at hrun
      obtain ⟨after, hmove, hrest⟩ := Option.bind_eq_some_iff.mp hrun
      exact .keep hmove (ih hrest)

/-- Once it is settled how a job ends, a run without calls that ask it to stop is the same but for
the flag. -/
theorem LeavesOut.moves? {moves fewer : List Move} {final : Service} (h : LeavesOut id service moves fewer)
    (hspeaks : service.Speaks) (htask : service.tasks[id]? = some task)
    (hfate : task.job.point.fate?.isSome = true) (hrun : service.moves? moves = some final) :
    ∃ final', service.moves? fewer = some final' ∧ final.flag id = final'.flag id := by
  induction h generalizing task with
  | done => exact ⟨final, hrun, rfl⟩
  | keep hmove _ ih =>
      have hmoves := moves_of_move? hmove
      obtain ⟨task', htask', hfate'⟩ := hmoves.fate? hspeaks htask hfate
      rw [moves?_cons, hmove, Option.bind_some] at hrun
      rw [moves?_cons, hmove, Option.bind_some]
      exact ih (hmoves.speaks hspeaks) htask' hfate' hrun
  | @skip service moves fewer hslot _ ih =>
      -- the call sets the flag, and the rest of the run is the same with it
      have hmove : service.move? .cancel = some service.cancel.2 := rfl
      have hmoves := moves_of_move? hmove
      obtain ⟨task', htask', hfate'⟩ := hmoves.fate? hspeaks htask hfate
      rw [moves?_cons, hmove, Option.bind_some] at hrun
      obtain ⟨flagged, hflagged, hsame⟩ := ih (hmoves.speaks hspeaks) htask' hfate' hrun
      rw [cancel_of_slot hslot, moves?_flag hspeaks htask hfate] at hflagged
      obtain ⟨final', hfinal', rfl⟩ := Option.map_eq_some_iff.mp hflagged
      exact ⟨final', hfinal', hsame.trans (flag_flag final' id)⟩

theorem outcome?_flag (service : Service) (id other : Nat) :
    (service.flag id).outcome? other = service.outcome? other := by
  unfold outcome?
  cases hother : service.tasks[other]? with
  | none => rw [getElem?_flag_none hother]
  | some mover =>
      obtain ⟨mover', hmover', hjob, -⟩ := exists_flagged hother id
      rw [hmover']
      change mover'.outcome? = mover.outcome?
      rw [Task.outcome?, Task.outcome?, hjob]

end Service

end Segue
