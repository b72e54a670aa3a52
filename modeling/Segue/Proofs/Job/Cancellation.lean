import Segue.Proofs.Files.Removal
import Segue.Proofs.Job.Belated
import Segue.Proofs.Job.Course
import Segue.Proofs.Job.Slot
import Segue.Proofs.Job.Stopping

/-!
Cancelling a job. Main statement: a call that comes before the last look of the job it is for keeps
the job from completing and brings it to an end, a later one changes nothing, a cancelled job leaves
nothing at its output where it could be removed, and only the job that was called for is ever
cancelled.
-/

namespace Segue

/-- Whether nothing is left to a job but to give back the slot and to tell of its end. -/
def Point.isQuiet : Point → Bool
  | .announce _ next => next.isQuiet
  | .release _ | .close _ | .ended _ => true
  | _ => false

/-- Whether the answer leaves the files alone. -/
def Request.isReadOnly : Request → Bool
  | .makeOutputDirectory _ | .removeOutput _ | .writeSheet .. | .makeSettingsDirectory _ | .writeSettings .. => false
  | _ => true

theorem Point.isQuiet_of_isOver {point : Point} (h : point.isOver = true) : point.isQuiet = true := by
  induction point with
  | announce event next ih => exact ih h
  | close | ended => rfl
  | _ => cases h

theorem Point.not_runsEngine_of_isQuiet {point : Point} (h : point.isQuiet = true) : point.runsEngine = false := by
  induction point with
  | announce event next ih => exact ih h
  | release | close | ended => rfl
  | _ => cases h

theorem Point.not_isQuiet_of_isCheck {point : Point} (h : point.isCheck = true) : point.isQuiet = false := by
  rcases Point.check_cases h with ⟨_, rfl⟩ | ⟨_, rfl⟩ | ⟨_, rfl⟩ | ⟨_, _, rfl⟩ | ⟨_, _, _, rfl⟩ <;> rfl

namespace Job

variable {isCancelled : Bool} {job job' : Job} {request : Request} {answer : request.Answer}

theorem Goes.isQuiet (h : Goes isCancelled job request answer job') (hquiet : job.point.isQuiet = true) :
    job'.point.isQuiet = true ∧ request.isReadOnly = true := by
  cases h with
  | announce hpoint | released hpoint | closed hpoint =>
      rw [hpoint] at hquiet
      exact ⟨hquiet, rfl⟩
  | halt hcheck =>
      rw [Point.not_isQuiet_of_isCheck hcheck] at hquiet
      cases hquiet
  | _ =>
      rw [‹job.point = _›] at hquiet
      cases hquiet

theorem IsOpen.fate?_ne_cancelled {point : Point} (h : IsOpen point) : point.fate? ≠ some .cancelled := by
  rcases h with h | h <;> rw [h] <;> nofun

/-- A cancelled job that has nothing left to do has tried to remove its output. -/
theorem Goes.withdrawn (h : Goes isCancelled job request answer job') (hfate : job'.point.fate? = some .cancelled)
    (hquiet : job'.point.isQuiet = true) :
    job.point.fate? = some .cancelled ∧ job.point.isQuiet = true ∨ job.point = .removeOutput := by
  cases h with
  | announce hpoint | released hpoint | closed hpoint =>
      rw [hpoint]
      exact .inl ⟨hfate, hquiet⟩
  | removed hpoint => exact .inr hpoint
  | enter hpoint => exact ((isOpen_enter job hpoint).fate?_ne_cancelled hfate).elim
  | checkSource => exact ((isOpen_checkSources job _ _).fate?_ne_cancelled hfate).elim
  | measured => exact ((isOpen_measureFrom _ _).fate?_ne_cancelled hfate).elim
  | heard => exact ((isOpen_hear job _ _ _ _).fate?_ne_cancelled hfate).elim
  | @finishRun use tail status =>
      cases use with
      | measuring => exact ((isOpen_finishRun_measuring job _ _ _ _).fate?_ne_cancelled hfate).elim
      | encoding arguments duration reached =>
          rcases fate?_finishRun_encoding job arguments duration reached tail status with hother | hother <;>
            cases hother.symm.trans hfate
  | sheetWritten => cases (fate?_persist job).symm.trans hfate
  | settingsStamped => cases (fate?_storeSettings job _ _).symm.trans hfate
  | engineMissing | directoryRefused | startRefused | settingsPlaceRefused | settingsWritten => cases hfate
  | _ => cases hquiet

end Job

namespace Service

variable {service after : Service} {id : Nat} {task : Task} {move : Move}

theorem eq_update_of_hear {heard : Heard} (h : service.hear id task = some (heard, after)) :
    ∃ change, after = service.update id change := by
  have hnone : service = service.update id fun task => task :=
    congrArg (fun tasks => { service with tasks }) (List.modify_id _ _).symm
  unfold hear at h
  split at h
  · cases h
    exact ⟨_, hnone⟩
  · split at h
    · cases h
      exact ⟨_, hnone⟩
    · split at h
      · cases h
        exact ⟨_, rfl⟩
      · split at h <;> cases h
        exact ⟨_, hnone⟩

theorem eq_update_of_await {status : Option ExitStatus} (h : service.await id task = some (status, after)) :
    ∃ change, after = service.update id change := by
  have hnone : service = service.update id fun task => task :=
    congrArg (fun tasks => { service with tasks }) (List.modify_id _ _).symm
  unfold await at h
  split at h
  · cases h
    exact ⟨_, hnone⟩
  · split at h
    · cases h
      exact ⟨_, hnone⟩
    · split at h <;> cases h
      exact ⟨_, rfl⟩

theorem setup_of_answer {request : Request} {answer : request.Answer}
    (h : service.answer id task request = some (answer, after)) :
    after.engine = service.engine ∧ after.settingsFile = service.settingsFile := by
  cases request with
  | hearEngine =>
      obtain ⟨change, rfl⟩ := eq_update_of_hear h
      exact ⟨rfl, rfl⟩
  | awaitEngine =>
      obtain ⟨change, rfl⟩ := eq_update_of_await h
      exact ⟨rfl, rfl⟩
  | startEngine arguments =>
      rw [answer_startEngine] at h
      split at h <;> cases h <;> exact ⟨rfl, rfl⟩
  | removeOutput | writeSheet | writeSettings =>
      cases h
      obtain ⟨tree, htree⟩ := service.withFiles_eq _
      rw [htree]
      exact ⟨rfl, rfl⟩
  | releaseSlot =>
      cases h
      rw [release_eq]
      exact ⟨rfl, rfl⟩
  | _ =>
      cases h
      exact ⟨rfl, rfl⟩

/-- No move changes which engine there is, nor where the settings are kept. -/
theorem Moves.setup_eq (h : service.Moves move after) :
    after.engine = service.engine ∧ after.settingsFile = service.settingsFile := by
  cases h with
  | @job _ _ _ _ between _ _ _ hanswer =>
      have hbetween : between.engine = service.engine ∧ between.settingsFile = service.settingsFile :=
        setup_of_answer hanswer
      exact hbetween
  | _ => exact ⟨rfl, rfl⟩

theorem files_of_answer {request : Request} {answer : request.Answer} (hreads : request.isReadOnly = true)
    (h : service.answer id task request = some (answer, after)) : after.files = service.files := by
  cases request with
  | makeOutputDirectory | removeOutput | writeSheet | makeSettingsDirectory | writeSettings => cases hreads
  | hearEngine =>
      obtain ⟨change, rfl⟩ := eq_update_of_hear h
      rfl
  | awaitEngine =>
      obtain ⟨change, rfl⟩ := eq_update_of_await h
      rfl
  | startEngine arguments =>
      rw [answer_startEngine] at h
      split at h <;> cases h <;> rfl
  | releaseSlot =>
      cases h
      rw [release_eq]
  | _ =>
      cases h
      rfl

/-- Every job has at most the slot to give back and its end to tell of. -/
def IsQuiet (service : Service) : Prop :=
  ∀ {id : Nat} {task : Task}, service.tasks[id]? = some task → task.job.point.isQuiet = true

/-- Among quiet jobs, nothing happens to the files until another job is started. -/
theorem Moves.quiet (hmoves : service.Moves move after) (hspeaks : service.Speaks)
    (horderly : service.Orderly) (hquiet : service.IsQuiet) (hlength : after.tasks.length = service.tasks.length) :
    after.files = service.files ∧ after.IsQuiet := by
  constructor
  · cases hmoves with
    | @job id task request answer between job htask hgoes hanswer =>
        have hfiles : between.files = service.files := files_of_answer (hgoes.isQuiet (hquiet htask)).2 hanswer
        exact hfiles
    | engine htask hrun =>
        have hruns := horderly.running htask (by rw [hrun]; rfl)
        rw [Point.not_runsEngine_of_isQuiet (hquiet htask)] at hruns
        cases hruns
    | _ => rfl
  · intro id task' htask'
    rcases hmoves.task_cases htask' with ⟨task, htask⟩ | ⟨rfl, -⟩
    · obtain ⟨told, task'', htask'', hevolves, -⟩ := hmoves.evolves hspeaks htask
      cases htask''.symm.trans htask'
      rcases hevolves.job_cases with ⟨hjob, -⟩ | ⟨-, request, answer, hgoes, -⟩
      · rw [hjob]
        exact hquiet htask
      · exact (hgoes.isQuiet (hquiet htask)).1
    · have hbound := (List.getElem?_eq_some_iff.mp htask').1
      omega

theorem length_le_of_moves? {moves : List Move} {final : Service} (hrun : service.moves? moves = some final) :
    service.tasks.length ≤ final.tasks.length :=
  invariant_of_moves? (p := fun between => service.tasks.length ≤ between.tasks.length)
    (fun _ _ _ hle hmoves => Nat.le_trans hle hmoves.length_le) (Nat.le_refl _) hrun

theorem files_of_quiet {moves : List Move} {final : Service} (hspeaks : service.Speaks) (horderly : service.Orderly)
    (hquiet : service.IsQuiet) (hrun : service.moves? moves = some final)
    (hlength : final.tasks.length = service.tasks.length) : final.files = service.files := by
  induction moves generalizing service with
  | nil =>
      cases hrun
      rfl
  | cons move moves ih =>
      rw [moves?_cons] at hrun
      obtain ⟨after, hmove, hrun⟩ := Option.bind_eq_some_iff.mp hrun
      have hmoves := moves_of_move? hmove
      have hbelow := hmoves.length_le
      have habove := length_le_of_moves? hrun
      obtain ⟨hfiles, hquiet'⟩ := hmoves.quiet hspeaks horderly hquiet (by omega)
      rw [ih (hmoves.speaks hspeaks) (hmoves.orderly horderly) hquiet' hrun (by omega), hfiles]

theorem move?_of_removal {files : FileTree} (htask : service.tasks[id]? = some task)
    (hpoint : task.job.point = .removeOutput) (hremove : service.files.remove task.job.request.output = .ok files) :
    service.move? (.job id) = some (Service.update { service with files } id fun mover =>
      { mover with job := task.job.goTo (.release .cancelled) }) := by
  change service.stepJob? id = _
  rw [stepJob?_of_task htask, Job.next, hpoint]
  change some ((service.withFiles (service.files.remove task.job.request.output)).update id _) = _
  rw [hremove]
  rfl

/-- What has been removed is gone until another job is started. -/
theorem contains_of_removal {moves : List Move} {final : Service} {files : FileTree} (hspeaks : service.Speaks)
    (horderly : service.Orderly) (htask : service.tasks[id]? = some task) (hpoint : task.job.point = .removeOutput)
    (hremove : service.files.remove task.job.request.output = .ok files)
    (hrun : service.moves? (.job id :: moves) = some final) (hlength : final.tasks.length = service.tasks.length) :
    final.files.contains task.job.request.output = false := by
  rw [moves?_cons] at hrun
  obtain ⟨after, hmove, hrun⟩ := Option.bind_eq_some_iff.mp hrun
  have hafter := Option.some.inj (hmove.symm.trans (move?_of_removal htask hpoint hremove))
  have hmoves := moves_of_move? hmove
  have hquiet : after.IsQuiet := by
    intro other mover hmover
    rw [hafter, getElem?_update] at hmover
    split at hmover
    · obtain ⟨before, -, rfl⟩ := Option.map_eq_some_iff.mp hmover
      rfl
    · rename_i hother
      rcases horderly.slot hmover with hslot | hover
      · rcases horderly.slot htask with hslot' | hover'
        · exact (hother (Option.some.inj (hslot'.symm.trans hslot))).elim
        · rw [hpoint] at hover'
          cases hover'
      · exact Point.isQuiet_of_isOver hover
  have hsame : after.tasks.length = service.tasks.length := hmoves.length_eq rfl
  have hfiles := files_of_quiet (hmoves.speaks hspeaks) (hmoves.orderly horderly) hquiet hrun
    (hlength.trans hsame.symm)
  rw [hfiles, hafter]
  exact FileTree.contains_of_remove hremove

/-! ### Calls -/

/-- A call that asks the job of an id to stop while it occupies the slot, and tells so. -/
def Stops (id : Nat) (service : Service) (move : Move) : Prop :=
  move = .cancel ∧ service.slot = some id ∧ service.cancel.1 = true

/-- The job of an id looks for the last time whether it has been cancelled. -/
def LooksLast (id : Nat) (service : Service) (move : Move) : Prop :=
  move = .job id ∧ ∃ task, service.tasks[id]? = some task ∧ task.job.point.isLastCheck = true

def Removes (id : Nat) (service : Service) (move : Move) : Prop :=
  move = .job id ∧ ∃ task, service.tasks[id]? = some task ∧ task.job.point = .removeOutput

/-- The job of an id goes on with a request. -/
def Asks (id : Nat) (request : Request) (service : Service) (move : Move) : Prop :=
  move = .job id ∧ service.request? id = some request

theorem asks_of_removes (h : Removes id service move) (htask : service.tasks[id]? = some task) :
    Asks id (.removeOutput task.job.request.output) service move := by
  obtain ⟨hmove, mover, hmover, hpoint⟩ := h
  cases htask.symm.trans hmover
  have hnext : ∃ resume, task.job.next = .ask (.removeOutput task.job.request.output) resume := by
    rw [Job.next, hpoint]
    exact ⟨_, rfl⟩
  obtain ⟨resume, hnext⟩ := hnext
  exact ⟨hmove, request?_of_next htask hnext⟩

section

variable {initial : Service} {before : List Move} (hfresh : initial.IsFresh)
  (hbefore : initial.moves? before = some service) (htask : service.tasks[id]? = some task)

include hfresh hbefore htask

/-- Only who was called for has the flag. -/
theorem made_of_isCancelled (hflag : task.isCancelled = true) : initial.Made before (Stops id) := by
  refine made_of_fresh (p := fun task => task.isCancelled = true) hfresh hbefore htask
    (fun _ _ => Bool.false_ne_true) ?_ hflag
  intro service move told task task' _ hevolves hflag'
  cases hevolves with
  | rest hface =>
      have hsame : task'.isCancelled = task.isCancelled := congrArg Prod.snd hface
      exact .inl (hsame.symm.trans hflag')
  | cancel hmove hslot =>
      refine .inr ⟨hmove, hslot, ?_⟩
      rw [cancel_of_slot hslot]
  | go _ _ hsame => exact .inl (hsame.symm.trans hflag')

/-- Only who was called for is bound to end as cancelled. -/
theorem made_of_cancelled (hfate : task.job.point.fate? = some .cancelled) : initial.Made before (Stops id) := by
  obtain ⟨earlier, move, later, between, rfl, hearlier, mover, hmover, hflag⟩ : initial.Made before
      fun service _ => ∃ mover, service.tasks[id]? = some mover ∧ mover.isCancelled = true := by
    refine made_of_goes (p := fun job => job.point.fate? = some .cancelled) hfresh hbefore htask (fun _ _ => nofun)
      ?_ hfate
    intro service between task job' request answer htask hgoes _ hfate'
    cases hfate : task.job.point.fate? with
    | some phase => exact .inl ((hgoes.fate?_eq hfate).symm.trans hfate')
    | none =>
        rcases hgoes.fate?_cases hfate with hopen | ⟨-, hflag⟩ | ⟨hcomplete, -⟩
        · exact (hopen.fate?_ne_cancelled hfate').elim
        · exact .inr ⟨task, htask, hflag⟩
        · cases hcomplete.symm.trans hfate'
  exact (made_of_isCancelled hfresh hearlier hmover hflag).append _

/-- Who is bound to complete has looked for the last time. -/
theorem made_of_complete (hfate : task.job.point.fate? = some .complete) : initial.Made before (LooksLast id) := by
  refine made_of_goes (p := fun job => job.point.fate? = some .complete) hfresh hbefore htask (fun _ _ => nofun)
    ?_ hfate
  intro service between task job' request answer htask hgoes _ hfate'
  by_cases hfate : task.job.point.fate? = some .complete
  · exact .inl hfate
  · by_cases hlast : task.job.point.isLastCheck = true
    · exact .inr ⟨rfl, task, htask, hlast⟩
    · exact (hgoes.fate?_ne_complete (.inr (Bool.eq_false_iff.mpr hlast)) hfate hfate').elim

/-- Who has been cancelled has tried to remove its output. -/
theorem made_of_withdrawn (hfate : task.job.point.fate? = some .cancelled) (hquiet : task.job.point.isQuiet = true) :
    initial.Made before fun service move => Removes id service move ∧
      Asks id (.removeOutput task.job.request.output) service move := by
  refine made_of_goes (p := fun job => (job.point.fate? = some .cancelled ∧ job.point.isQuiet = true) ∧
    job.request.output = task.job.request.output) hfresh hbefore htask (fun _ _ h => nomatch h.1.2) ?_
    ⟨⟨hfate, hquiet⟩, rfl⟩
  rintro service between mover job' request answer hmover hgoes - ⟨hwithdrawn, houtput⟩
  rw [hgoes.keeps.output] at houtput
  rcases hgoes.withdrawn hwithdrawn.1 hwithdrawn.2 with hbefore | hpoint
  · exact .inl ⟨hbefore, houtput⟩
  · have hremoves : Removes id service (.job id) := ⟨rfl, mover, hmover, hpoint⟩
    have hasks := asks_of_removes hremoves hmover
    rw [houtput] at hasks
    exact .inr ⟨hremoves, hasks⟩

/-- Once a job has looked for the last time, it is settled how it ends. -/
theorem settled_of_made (hlast : initial.Made before (LooksLast id)) : task.job.point.fate?.isSome = true := by
  obtain ⟨earlier, move, later, between, rfl, hearlier, rfl, mover, hmover, hcheck⟩ := hlast
  obtain ⟨after, hmove, hlater⟩ := moves?_middle hbefore rfl hearlier
  have hspeaks := speaks_of_moves? hfresh hearlier
  have hmoves := moves_of_move? hmove
  obtain ⟨told, mover', hmover', hevolves, -⟩ := hmoves.evolves hspeaks hmover
  have hsettled : mover'.job.point.fate?.isSome = true := by
    cases hevolves with
    | rest _ hother =>
        rw [Move.isStepOf, beq_self_eq_true] at hother
        cases hother
    | cancel hcancel => cases hcancel
    | go _ hgoes => exact hgoes.fate?_isSome hcheck
  obtain ⟨task', htask', hfate⟩ := fate?_of_moves? (hmoves.speaks hspeaks) hmover' hsettled hlater
  cases htask.symm.trans htask'
  exact hfate

/-- What a call does that comes in time. -/
theorem ends_of_cancel (hslot : service.slot = some id) (hlook : ¬ initial.Made before (LooksLast id))
    {moves : List Move} {final : Service} (hrun : service.cancel.2.moves? moves = some final) :
    (∀ outcome, final.outcome? id = some outcome → outcome = .cancelled ∨ ∃ message, outcome = .failed message) ∧
      (final.outcome? id = none → (final.stepJob? id).isSome = true) ∧
      moves.countP (Move.isStepOf id) ≤ task.job.point.stepsLeft := by
  have hspeaks := speaks_of_moves? hfresh hbefore
  have hfate : task.job.point.fate? ≠ some .complete := fun hcomplete =>
    hlook (made_of_complete hfresh hbefore htask hcomplete)
  have hmove : service.move? .cancel = some service.cancel.2 := rfl
  have hflagged : service.cancel.2.tasks[id]? = some { task with isCancelled := true } := by
    rw [cancel_of_slot hslot, getElem?_flag, if_pos rfl, htask]
    rfl
  obtain ⟨task', htask', hflag, hfate', hcount⟩ :=
    stopping_of_moves? ((moves_of_move? hmove).speaks hspeaks) hflagged rfl hfate hrun
  refine ⟨?_, stepJob?_isSome htask' fun _ => .inl hflag, Nat.le_trans (Nat.le_add_right _ _) hcount⟩
  intro outcome hended
  rw [outcome?_eq_some hended htask'] at hfate'
  cases outcome with
  | completed output => exact (hfate' rfl).elim
  | failed message => exact .inr ⟨message, rfl⟩
  | cancelled => exact .inl rfl

/-- What calls do that come too late. -/
theorem same_of_leavesOut (hlook : initial.Made before (LooksLast id)) {moves fewer : List Move} {final : Service}
    (hleaves : LeavesOut id service moves fewer) (hrun : service.moves? moves = some final) :
    ∃ final', service.moves? fewer = some final' ∧ final.outcome? id = final'.outcome? id ∧
      final.files = final'.files ∧ final.events = final'.events := by
  obtain ⟨final', hrun', hsame⟩ :=
    hleaves.moves? (speaks_of_moves? hfresh hbefore) htask (settled_of_made hfresh hbefore htask hlook) hrun
  refine ⟨final', hrun', ?_, congrArg (·.files) hsame, congrArg (·.events) hsame⟩
  rw [← outcome?_flag final id, hsame, outcome?_flag]

/-- What a cancelled job leaves at its output. -/
theorem removal_of_cancelled (hended : service.outcome? id = some .cancelled) :
    ∃ earlier later between, before = earlier ++ .job id :: later ∧ initial.moves? earlier = some between ∧
      between.request? id = some (.removeOutput task.job.request.output) ∧
      ∀ files, between.files.remove task.job.request.output = .ok files →
        service.tasks.length = between.tasks.length → service.files.contains task.job.request.output = false := by
  have hpoint := outcome?_eq_some hended htask
  obtain ⟨earlier, move, later, between, rfl, hearlier, ⟨rfl, mover, hmover, hremoves⟩, -, hasked⟩ :=
    made_of_withdrawn hfresh hbefore htask (by rw [hpoint]; rfl) (by rw [hpoint]; rfl)
  have hlater : between.moves? (.job id :: later) = some service := by
    rw [moves?_append, hearlier] at hbefore
    exact hbefore
  have hspeaks := speaks_of_moves? hfresh hearlier
  obtain ⟨told, task', htask', hreaches, -⟩ := reaches_of_moves? hspeaks hmover hlater
  cases htask.symm.trans htask'
  refine ⟨earlier, later, between, rfl, hearlier, hasked, ?_⟩
  -- the job has gone on since the removal, but not to another output
  rw [hreaches.keeps.output]
  intro files hremove hlength
  exact contains_of_removal hspeaks (orderly_of_moves? hfresh hearlier) hmover hremoves hremove hlater hlength

end

/-- **Cancelling.** At every moment of every run: a call that comes while a job occupies the slot
and has not looked for the last time keeps it from completing, and it ends without ever waiting
again; calls that come behind that look make no difference to how the job ends, to the files or to
what is told; a job that has been cancelled was called for while it occupied the slot, and it has
tried to remove its output, where nothing is until another job is started if that could be done. -/
theorem cancel_of_moves? {initial : Service} {before : List Move} (hfresh : initial.IsFresh)
    (hbefore : initial.moves? before = some service) (htask : service.tasks[id]? = some task) :
    (service.slot = some id → ¬ initial.Made before (LooksLast id) →
      ∀ moves final, service.cancel.2.moves? moves = some final →
        (∀ outcome, final.outcome? id = some outcome → outcome = .cancelled ∨ ∃ message, outcome = .failed message) ∧
        (final.outcome? id = none → (final.stepJob? id).isSome = true) ∧
        moves.countP (Move.isStepOf id) ≤ task.job.point.stepsLeft) ∧
    (initial.Made before (LooksLast id) →
      ∀ moves fewer final, LeavesOut id service moves fewer → service.moves? moves = some final →
        ∃ final', service.moves? fewer = some final' ∧ final.outcome? id = final'.outcome? id ∧
          final.files = final'.files ∧ final.events = final'.events) ∧
    (service.outcome? id = some .cancelled →
      initial.Made before (Stops id) ∧
      ∃ earlier later between, before = earlier ++ .job id :: later ∧ initial.moves? earlier = some between ∧
        between.request? id = some (.removeOutput task.job.request.output) ∧
        ∀ files, between.files.remove task.job.request.output = .ok files →
          service.tasks.length = between.tasks.length → service.files.contains task.job.request.output = false) := by
  refine ⟨?_, ?_, ?_⟩
  · intro hslot hlook moves final hrun
    exact ends_of_cancel hfresh hbefore htask hslot hlook hrun
  · intro hlook moves fewer final hleaves hrun
    exact same_of_leavesOut hfresh hbefore htask hlook hleaves hrun
  · intro hended
    have hfate : task.job.point.fate? = some .cancelled := by
      rw [outcome?_eq_some hended htask]
      rfl
    exact ⟨made_of_cancelled hfresh hbefore htask hfate, removal_of_cancelled hfresh hbefore htask hended⟩

def evening : ExportRequest where
  mix := { root := ⟨"set"⟩, file := ⟨"set/mix.json"⟩, project := .empty "Evening" }
  output := ⟨"evening.flac"⟩
  settings := {}

/-- A service with an older render in the way. -/
def cluttered : Service where
  engine := {}
  files := { entries := [(["evening.flac"], .file "" false)] }

/-- Where a render is cancelled before it has begun. -/
def cancelledAtOnce : List Move := [.start evening, .cancel, .job 0, .job 0, .job 0, .job 0, .job 0]

/-- Where a render is asked to stop when it has looked for the last time, and is completed all the
same. -/
def askedTooLate : List Move := .cancel :: List.replicate 5 (.job 0)

theorem cancel_of_moves?_cluttered :
    cluttered.IsFresh ∧
      (∃ service task, cluttered.moves? [.start evening] = some service ∧ service.tasks[0]? = some task ∧
        service.slot = some 0 ∧ ∀ moves final, service.cancel.2.moves? moves = some final →
          (∀ outcome, final.outcome? 0 = some outcome → outcome = .cancelled ∨ ∃ message, outcome = .failed message) ∧
          (final.outcome? 0 = none → (final.stepJob? 0).isSome = true) ∧
          moves.countP (Move.isStepOf 0) ≤ task.job.point.stepsLeft) ∧
      (∃ service final, equippedToRender.IsFresh ∧
        equippedToRender.moves? (rendered ⟨"night.flac"⟩ 3) = some service ∧ service.slot = some 0 ∧
        equippedToRender.Made (rendered ⟨"night.flac"⟩ 3) (LooksLast 0) ∧
        LeavesOut 0 service askedTooLate (List.replicate 5 (.job 0)) ∧ service.moves? askedTooLate = some final ∧
        final.outcome? 0 = some (.completed ⟨"night.flac"⟩) ∧
        ∃ final', service.moves? (List.replicate 5 (.job 0)) = some final' ∧ final.outcome? 0 = final'.outcome? 0 ∧
          final.files = final'.files ∧ final.events = final'.events) ∧
      ∃ service task, cluttered.moves? cancelledAtOnce = some service ∧ service.tasks[0]? = some task ∧
        cluttered.Made cancelledAtOnce (Stops 0) ∧
        ∃ earlier later between, cancelledAtOnce = earlier ++ .job 0 :: later ∧
          cluttered.moves? earlier = some between ∧
          between.request? 0 = some (.removeOutput task.job.request.output) ∧
          ∀ files, between.files.remove task.job.request.output = .ok files →
            service.tasks.length = between.tasks.length →
              service.files.contains task.job.request.output = false := by
  have hfresh : cluttered.IsFresh := ⟨rfl, rfl, rfl⟩
  have hlook : ¬ cluttered.Made [.start evening] (LooksLast 0) := by
    rintro ⟨earlier, move, later, between, hmoves, -, rfl, -⟩
    have hmem : Move.job 0 ∈ [Move.start evening] := hmoves ▸ List.mem_append_right _ List.mem_cons_self
    cases List.mem_singleton.mp hmem
  refine ⟨hfresh,
    ⟨_, _, rfl, rfl, rfl, (@cancel_of_moves? _ 0 _ cluttered [.start evening] hfresh rfl rfl).1 rfl hlook⟩, ?_,
    ⟨_, _, rfl, rfl, (@cancel_of_moves? _ 0 _ cluttered cancelledAtOnce hfresh rfl rfl).2.2 rfl⟩⟩
  -- the last look is the third step behind the engine, and the call comes behind that
  obtain ⟨left, hleft, encoded, hencoded, hcheck⟩ : ∃ left ∈ equippedToRender.moves? (rendered ⟨"night.flac"⟩ 2),
      ∃ encoded ∈ left.tasks[0]?, encoded.job.point.isLastCheck = true := by
    decide +kernel
  have hlooked : equippedToRender.Made (rendered ⟨"night.flac"⟩ 3) (LooksLast 0) :=
    ⟨rendered ⟨"night.flac"⟩ 2, .job 0, [], left, rfl, hleft, rfl, encoded, hencoded, hcheck⟩
  obtain ⟨service, hservice, task, htask, final, hfinal, hslot, hended⟩ :
      ∃ service ∈ equippedToRender.moves? (rendered ⟨"night.flac"⟩ 3), ∃ task ∈ service.tasks[0]?,
        ∃ final ∈ service.moves? askedTooLate,
          service.slot = some 0 ∧ final.outcome? 0 = some (.completed ⟨"night.flac"⟩) := by
    decide +kernel
  have hleaves : LeavesOut 0 service askedTooLate (List.replicate 5 (.job 0)) := .skip hslot (.refl hfinal)
  exact ⟨service, final, isFresh_equippedToRender, hservice, hslot, hlooked, hleaves, hfinal, hended,
    (cancel_of_moves? isFresh_equippedToRender hservice htask).2.1 hlooked _ _ _ hleaves hfinal⟩

end Service

end Segue
