import Segue.Proofs.Files.Directories
import Segue.Proofs.Job.Release

/-!
The files of a job that ends before its mix is encoded. Main statement: such a job has failed or
been cancelled, and all its steps leave every file as it was, unless it was cancelled and there was
a file at its output already: that is deleted, though the job has not written it, and nothing else.
-/

namespace Segue

namespace Job

variable {job job' : Job} {isCancelled : Bool} {request : Request} {answer : request.Answer}

/-- Before the engine is started to encode, a job makes directories and removes its output, and that
is all that it does to the files. -/
theorem Goes.files_cases (h : Goes isCancelled job request answer job') (hunencoded : job.point.isEncoding = false) :
    request.isReadOnly = true ∨ (∃ directory, request = .makeOutputDirectory directory) ∨
      request = .removeOutput job.request.output ∧ job.point = .removeOutput := by
  cases h with
  | directoryMade | directoryRefused => exact .inr (.inl ⟨_, rfl⟩)
  | removed hpoint => exact .inr (.inr ⟨rfl, hpoint⟩)
  | sheetWritten hpoint | settingsPlaceMade hpoint | settingsPlaceRefused hpoint | settingsWritten hpoint =>
      rw [hpoint] at hunencoded
      cases hunencoded
  | _ => exact .inl rfl

theorem Reaches.fate?_eq {told : List Event} (h : job.Reaches told job') {phase : Phase}
    (hfate : job.point.fate? = some phase) : job'.point.fate? = some phase := by
  induction h with
  | refl => exact hfate
  | go _ hgoes ih => exact hgoes.fate?_eq ih

end Job

namespace Service

variable {initial service after final : Service} {id : Nat} {task : Task} {moves : List Move} {outcome : Outcome}

/-- The engine is started for a job to encode its mix. -/
def Encodes (id : Nat) (service : Service) (move : Move) : Prop :=
  move = .job id ∧ ∃ task use tail, service.tasks[id]? = some task ∧ task.job.point = .engine use tail .start ∧
    use.isEncoding = true ∧ service.engine.startable (task.job.argumentsOf use) service.files = .ok ()

/-- A job deletes a file, which it takes for its own output. -/
def Deletes (id : Nat) (service : Service) (move : Move) : Prop :=
  move = .job id ∧ ∃ task files, service.tasks[id]? = some task ∧ task.job.point = .removeOutput ∧
    service.files.remove task.job.request.output = .ok files

/-- Every step that a job takes in a run leads from one service to another in some way. -/
def EachStep (initial : Service) (moves : List Move) (id : Nat) (p : Service → Service → Prop) : Prop :=
  ∀ {earlier later between after}, moves = earlier ++ .job id :: later → initial.moves? earlier = some between →
    between.move? (.job id) = some after → p between after

theorem startable_of_answer {request : Request} {answer : request.Answer} {arguments : List String}
    (h : service.answer id task request = some (answer, after)) (hstarted : request.started answer = [arguments]) :
    service.engine.startable arguments service.files = .ok () := by
  cases request with
  | startEngine arguments' =>
      rw [answer_startEngine] at h
      split at h
      · rename_i hstartable
        cases h
        cases hstarted
        exact hstartable
      · cases h
        cases hstarted
  | _ => cases hstarted

/-- The mix of a job that is further than that has been started to be encoded. -/
theorem made_of_isEncoding (hfresh : initial.IsFresh) (hrun : initial.moves? moves = some service)
    (htask : service.tasks[id]? = some task) (hencoding : task.job.point.isEncoding = true) :
    initial.Made moves (Encodes id) := by
  refine made_of_goes (p := fun job => job.point.isEncoding = true) hfresh hrun htask (fun _ _ => nofun) ?_ hencoding
  intro service between mover job' request answer hmover hgoes hanswer hencoding'
  rcases hgoes.isEncoding_turns hencoding' with hbefore | ⟨use, tail, huse, hpoint, hstarted⟩
  · exact .inl hbefore
  · exact .inr ⟨rfl, mover, use, tail, hmover, hpoint, huse, startable_of_answer hanswer hstarted⟩

/-- What a step does to the files before the mix is encoded. -/
theorem Moves.files_of_unencoded (h : service.Moves (.job id) after) (htask : service.tasks[id]? = some task)
    (hunencoded : task.job.point.isEncoding = false) :
    service.files.SameFiles after.files ∨
      task.job.point = .removeOutput ∧ service.files.remove task.job.request.output = .ok after.files := by
  cases h with
  | @job _ mover request answer between job hmover hgoes hanswer =>
      cases htask.symm.trans hmover
      rcases hgoes.files_cases hunencoded with hreads | ⟨directory, rfl⟩ | ⟨rfl, hpoint⟩
      · have hfiles : between.files = service.files := files_of_answer hreads hanswer
        exact .inl fun place text executable => by rw [← hfiles]; rfl
      · cases hanswer
        exact .inl (.makeDirectories _ _)
      · cases hanswer
        cases hremove : service.files.remove task.job.request.output with
        | ok files => exact .inr ⟨hpoint, rfl⟩
        | error error => exact .inl (.refl _)

theorem length_invocations_le (hrun : service.moves? moves = some final) :
    service.invocations.length ≤ final.invocations.length := by
  refine invariant_of_moves? (p := fun between => service.invocations.length ≤ between.invocations.length) ?_
    (Nat.le_refl _) hrun
  intro between move after hle hmoves
  cases hmoves with
  | @job mover task request answer answered job htask hgoes hanswer =>
      have hinvocations := congrArg List.length (answered_of_answer hanswer).invocations
      rw [List.length_append] at hinvocations
      change _ ≤ answered.invocations.length
      omega
  | _ => exact hle

/-- Starting the engine to encode is a run of it. -/
theorem length_invocations_lt (hrun : initial.moves? moves = some final) (h : initial.Made moves (Encodes id)) :
    initial.invocations.length < final.invocations.length := by
  obtain ⟨earlier, move, later, between, hmoves, hearlier, rfl, task, use, tail, htask, hpoint, -, hstartable⟩ := h
  obtain ⟨after, hmove, hlater⟩ := moves?_middle hrun hmoves hearlier
  have hbefore := length_invocations_le hearlier
  have hbehind := length_invocations_le hlater
  have hafter : after.invocations.length = between.invocations.length + 1 := by
    have hanswer : between.answer id task (.startEngine (task.job.argumentsOf use)) =
        some (.ok (), between.startEngine id (task.job.argumentsOf use)) := by
      rw [answer_startEngine, hstartable]
    change between.stepJob? id = some after at hmove
    rw [stepJob?_of_task htask, Job.next, hpoint] at hmove
    change (between.answer id task (.startEngine (task.job.argumentsOf use))).map _ = some after at hmove
    rw [hanswer, Option.map_some] at hmove
    cases hmove
    exact List.length_append
  omega

section

variable (hfresh : initial.IsFresh) (hrun : initial.moves? moves = some final)
  (htask : final.tasks[id]? = some task)

include hfresh hrun htask

/-- What each step of a job does to the files when its mix has not been started to be encoded. -/
theorem eachStep_of_unencoded (hunencoded : ¬ initial.Made moves (Encodes id)) :
    initial.EachStep moves id fun between after => between.files.SameFiles after.files ∨
      ∃ mover, between.tasks[id]? = some mover ∧ mover.job.point = .removeOutput ∧
        mover.job.request.output = task.job.request.output ∧
        between.files.remove task.job.request.output = .ok after.files := by
  intro earlier later between after hmoves hearlier hmove
  obtain ⟨mover, -, -, -, -, hmover, -⟩ := stepJob?_eq_some hmove
  have hbefore : mover.job.point.isEncoding = false := by
    refine Bool.eq_false_iff.mpr fun hencoding => hunencoded ?_
    rw [hmoves]
    exact (made_of_isEncoding hfresh hearlier hmover hencoding).append _
  obtain ⟨told, task', htask', hreaches, -⟩ :=
    reaches_of_moves? (speaks_of_moves? hfresh hearlier) hmover (moves?_rest hrun hmoves hearlier)
  cases htask.symm.trans htask'
  rw [hreaches.keeps.output]
  exact ((moves_of_move? hmove).files_of_unencoded hmover hbefore).imp_right fun hremoved =>
    ⟨mover, hmover, hremoved.1, rfl, hremoved.2⟩

/-- A job that deletes a file has been cancelled. -/
theorem fate?_of_deletes (h : initial.Made moves (Deletes id)) : task.job.point.fate? = some .cancelled := by
  obtain ⟨earlier, move, later, between, hmoves, hearlier, rfl, mover, files, hmover, hremoving, -⟩ := h
  obtain ⟨told, task', htask', hreaches, -⟩ :=
    reaches_of_moves? (speaks_of_moves? hfresh hearlier) hmover (moves?_rest hrun hmoves hearlier)
  cases htask.symm.trans htask'
  exact hreaches.fate?_eq (by rw [hremoving]; rfl)

end

/-- No file changes in a step just when no step deletes one. -/
theorem eachStep_sameFiles_iff {output : Path} (h : initial.EachStep moves id fun between after =>
    between.files.SameFiles after.files ∨ ∃ mover, between.tasks[id]? = some mover ∧
      mover.job.point = .removeOutput ∧ mover.job.request.output = output ∧
      between.files.remove output = .ok after.files) :
    initial.EachStep moves id (fun between after => between.files.SameFiles after.files) ↔
      ¬ initial.Made moves (Deletes id) := by
  constructor
  · rintro hsame ⟨earlier, move, later, between, hmoves, hearlier, rfl, mover, files, hmover, hremoving, hremove⟩
    have hmove := move?_of_removal hmover hremoving hremove
    exact (FileTree.not_sameFiles_of_remove hremove).1 (hsame hmoves hearlier hmove)
  · intro hkept earlier later between after hmoves hearlier hmove
    rcases h hmoves hearlier hmove with hsame | ⟨mover, hmover, hremoving, rfl, hremove⟩
    · exact hsame
    · exact (hkept ⟨earlier, _, later, between, hmoves, hearlier, rfl, mover, _, hmover, hremoving, hremove⟩).elim

/-- **Before the encoder.** A job that ends without the engine having been started to encode its mix
has failed or been cancelled. Each of its steps leaves all files as they were, or deletes the one
that was at its output and no other; it does not delete any unless it has been cancelled. -/
theorem untouched_of_unencoded (hfresh : initial.IsFresh) (hrun : initial.moves? moves = some final)
    (htask : final.tasks[id]? = some task) (hended : final.outcome? id = some outcome)
    (hunencoded : ¬ initial.Made moves (Encodes id)) :
    (outcome = .cancelled ∨ ∃ message, outcome = .failed message) ∧
    (initial.EachStep moves id (fun between after => between.files.SameFiles after.files) ↔
      ¬ initial.Made moves (Deletes id)) ∧
    (initial.Made moves (Deletes id) → outcome = .cancelled) ∧
    initial.EachStep moves id fun between after => between.files.SameFiles after.files ∨
      ∃ names, between.files.find task.job.request.output = .ok (.inside names) ∧
        ∀ place, place ≠ .inside names → after.files.entry? place = between.files.entry? place := by
  have hpoint := outcome?_eq_some hended htask
  refine ⟨?_, eachStep_sameFiles_iff (eachStep_of_unencoded hfresh hrun htask hunencoded), ?_, ?_⟩
  · cases outcome with
    | completed output =>
        exact (hunencoded (made_of_isEncoding hfresh hrun htask (by rw [hpoint]; rfl))).elim
    | failed message => exact .inr ⟨message, rfl⟩
    | cancelled => exact .inl rfl
  · intro hdeleted
    have hfate := fate?_of_deletes hfresh hrun htask hdeleted
    rw [hpoint] at hfate
    cases outcome with
    | cancelled => rfl
    | completed | failed => cases hfate
  · intro earlier later between after hmoves hearlier hmove
    have hstep := eachStep_of_unencoded hfresh hrun htask hunencoded hmoves hearlier hmove
    refine hstep.imp_right ?_
    rintro ⟨mover, -, -, -, hremove⟩
    exact (FileTree.not_sameFiles_of_remove hremove).2

/-- A service with an engine and with an older render. -/
def equipped : Service where
  engine := { binary := "./ffmpeg" }
  files := { entries := [(["ffmpeg"], .file "" true), (["evening.flac"], .file "old" false)] }

/-- Where a render is cancelled while its sources are looked for. -/
def cancelledInValidating : List Move :=
  [.start evening, .job 0, .job 0, .cancel] ++ List.replicate 6 (.job 0)

theorem not_made_cancelledInValidating : ¬ equipped.Made cancelledInValidating (Encodes 0) := by
  intro hmade
  have hrun : equipped.moves? cancelledInValidating =
      some ((equipped.moves? cancelledInValidating).getD equipped) := rfl
  have hlt := length_invocations_lt hrun hmade
  exact Nat.lt_irrefl 0 hlt

theorem untouched_of_unencoded_cancelledInValidating :
    ∃ final task, equipped.IsFresh ∧ equipped.moves? cancelledInValidating = some final ∧
      final.tasks[0]? = some task ∧ final.outcome? 0 = some .cancelled ∧
      ¬ equipped.Made cancelledInValidating (Encodes 0) ∧
      (equipped.EachStep cancelledInValidating 0 (fun between after => between.files.SameFiles after.files) ↔
        ¬ equipped.Made cancelledInValidating (Deletes 0)) ∧
      equipped.EachStep cancelledInValidating 0 fun between after => between.files.SameFiles after.files ∨
        ∃ names, between.files.find task.job.request.output = .ok (.inside names) ∧
          ∀ place, place ≠ .inside names → after.files.entry? place = between.files.entry? place := by
  have hfresh : equipped.IsFresh := ⟨rfl, rfl, rfl⟩
  obtain ⟨-, hiff, -, hsteps⟩ :=
    @untouched_of_unencoded equipped _ 0 _ cancelledInValidating .cancelled hfresh rfl rfl rfl
      not_made_cancelledInValidating
  exact ⟨_, _, hfresh, rfl, rfl, rfl, not_made_cancelledInValidating, hiff, hsteps⟩

/-- An older render is lost to a job that never came to encode. -/
theorem lost_of_cancelledInValidating :
    ∃ final, equipped.IsFresh ∧ equipped.moves? cancelledInValidating = some final ∧
      final.outcome? 0 = some .cancelled ∧ ¬ equipped.Made cancelledInValidating (Encodes 0) ∧
      equipped.files.read evening.output = .ok "old" ∧ final.files.read evening.output = .error .notFound :=
  ⟨_, ⟨rfl, rfl, rfl⟩, rfl, rfl, not_made_cancelledInValidating, rfl, rfl⟩

end Service

end Segue
