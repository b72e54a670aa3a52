import Segue.Proofs.Files.Extensions
import Segue.Proofs.Job.Release
import Segue.Proofs.Job.Storing
import Segue.Proofs.Job.Untouched

/-!
What becomes of the rendered audio. Main statement: in every run of a job that completes, the file
at its output is at the end as the encoder has left it, unless a cue sheet is written in its place;
and that happens only where the path of the sheet is the output itself.
-/

namespace Segue

/-- Whether the encoder has ended and the job has yet to look whether it has been cancelled, or to
write its cue sheet. -/
def Point.isClosing : Point → Bool
  | .announce _ .writeSheet | .writeSheet => true
  | point => point.isLastCheck

theorem Point.closing_cases {point : Point} (h : point.isClosing = true) :
    (∃ event, point = .announce event .writeSheet) ∨ point = .writeSheet ∨ point.isLastCheck = true := by
  unfold Point.isClosing at h
  split at h
  · exact .inl ⟨_, rfl⟩
  · exact .inr (.inl rfl)
  · exact .inr (.inr h)

theorem Point.lastCheck_cases {point : Point} (h : point.isLastCheck = true) :
    ∃ use tail status, point = .engine use tail (.checkAfter status) ∧ use.isEncoding = true := by
  unfold Point.isLastCheck at h
  split at h
  · exact ⟨_, _, _, rfl, h⟩
  · cases h

theorem Point.isClosing_of_isLastCheck {point : Point} (h : point.isLastCheck = true) : point.isClosing = true := by
  obtain ⟨_, _, _, rfl, huse⟩ := Point.lastCheck_cases h
  exact huse

theorem Point.not_isOver_of_isClosing {point : Point} (h : point.isClosing = true) : point.isOver = false := by
  rcases Point.closing_cases h with ⟨_, rfl⟩ | rfl | hlast
  · rfl
  · rfl
  · obtain ⟨_, _, _, rfl, -⟩ := Point.lastCheck_cases hlast
    rfl

theorem Point.not_runsEngine_of_isClosing {point : Point} (h : point.isClosing = true) :
    point.runsEngine = false := by
  rcases Point.closing_cases h with ⟨_, rfl⟩ | rfl | hlast
  · rfl
  · rfl
  · obtain ⟨_, _, _, rfl, -⟩ := Point.lastCheck_cases hlast
    rfl

namespace Job

/-- A job that does not keep its settings has at most a cue sheet to write before it completes. -/
structure Closes (job : Job) : Prop where
  point : job.point.isClosing = true
  settings : job.settingsFile = none
  sheet : job.point.isLastCheck = true ∨ job.request.settings.writesCueSheet = true

/-- The files once such a job has completed. -/
def closed (job : Job) (files : FileTree) : FileTree :=
  if job.request.settings.writesCueSheet then
    (files.write (CueSheet.pathBeside job.request.output) job.sheetText).toOption.getD files
  else files

variable {job job' : Job} {isCancelled : Bool} {request : Request} {answer : request.Answer}

theorem persist_of_none (h : job.settingsFile = none) : job.persist = job.complete := by
  unfold persist
  rw [h]

theorem closed_of_request (h : job'.request = job.request) : job'.closed = job.closed := by
  funext files
  simp only [closed, sheetText, h]

/-- What is read at the output when the job has closed is what was read there before, unless the cue
sheet has taken its place. -/
theorem read_closed (job : Job) (files : FileTree) :
    ((job.closed files).read job.request.output).toOption = (files.read job.request.output).toOption ↔
      (job.request.settings.writesCueSheet = true → CueSheet.pathBeside job.request.output = job.request.output →
        ∀ tree, files.write job.request.output job.sheetText = .ok tree →
          files.read job.request.output = .ok job.sheetText) := by
  unfold closed
  cases hsheet : job.request.settings.writesCueSheet with
  | false =>
      rw [if_neg Bool.false_ne_true]
      exact iff_of_true rfl nofun
  | true =>
      rw [if_pos rfl]
      cases hwrite : files.write (CueSheet.pathBeside job.request.output) job.sheetText with
      | error error =>
          refine iff_of_true rfl fun _ hsame tree htree => ?_
          rw [hsame, htree] at hwrite
          cases hwrite
      | ok tree =>
          by_cases hsame : CueSheet.pathBeside job.request.output = job.request.output
          · rw [hsame] at hwrite
            have hread : (tree.read job.request.output).toOption = some job.sheetText :=
              toOption_eq_some.mpr (FileTree.read_of_write hwrite)
            change (tree.read job.request.output).toOption = _ ↔ _
            rw [hread, eq_comm, toOption_eq_some]
            exact ⟨fun h _ _ _ _ => h, fun h => h rfl hsame tree hwrite⟩
          · exact iff_of_true (FileTree.read_of_writeBeside (by decide) hsame hwrite) fun _ h => (hsame h).elim

/-- What comes behind the last look. -/
theorem closes_finishRun {use : EngineUse} {tail : DiagnosticTail} {status : ExitStatus} (huse : use.isEncoding = true)
    (hsettings : job.settingsFile = none) (hcomplete : (job.finishRun use tail status).point.fate? = some .complete) :
    (job.finishRun use tail status).request = job.request ∧
      ((job.finishRun use tail status).Closes ∨
        (job.finishRun use tail status).point = .release (.completed job.request.output) ∧
          job.request.settings.writesCueSheet = false) := by
  cases use with
  | measuring => cases huse
  | encoding arguments duration reached =>
      unfold finishRun at hcomplete ⊢
      dsimp only at hcomplete ⊢
      split at hcomplete
      · cases hcomplete
      · rename_i hsuccess
        rw [if_neg hsuccess]
        cases hsheet : job.request.settings.writesCueSheet with
        | true => exact ⟨rfl, .inl ⟨rfl, hsettings, .inr hsheet⟩⟩
        | false =>
            have hpersist : ({ job with percent := 100.0 } : Job).persist = _ := persist_of_none hsettings
            rw [if_neg Bool.false_ne_true, hpersist]
            exact ⟨rfl, .inr ⟨rfl, rfl⟩⟩

/-- What a job that closes does next. -/
theorem Goes.closes_cases (h : Goes isCancelled job request answer job') (hcloses : job.Closes)
    (hcomplete : job'.point.fate? = some .complete) :
    job'.request = job.request ∧
      (request.isReadOnly = true ∧ (job'.Closes ∨ job'.point = .release (.completed job.request.output) ∧
          job.request.settings.writesCueSheet = false) ∨
        request = .writeSheet (CueSheet.pathBeside job.request.output) job.sheetText ∧
          job'.point = .release (.completed job.request.output) ∧ job.request.settings.writesCueSheet = true) := by
  obtain ⟨hclosing, hsettings, hsheet⟩ := hcloses
  rcases Point.closing_cases hclosing with ⟨event, hpoint⟩ | hpoint | hlast
  · rw [hpoint] at hsheet
    cases h with
    | announce hannounce =>
        cases hpoint.symm.trans hannounce
        exact ⟨rfl, .inl ⟨rfl, .inl ⟨rfl, hsettings, .inr (hsheet.resolve_left nofun)⟩⟩⟩
    | halt hcheck =>
        rw [hpoint] at hcheck
        cases hcheck
    | _ => cases hpoint.symm.trans ‹job.point = _›
  · rw [hpoint] at hsheet
    cases h with
    | sheetWritten =>
        rw [persist_of_none hsettings]
        exact ⟨rfl, .inr ⟨rfl, rfl, hsheet.resolve_left nofun⟩⟩
    | halt hcheck =>
        rw [hpoint] at hcheck
        cases hcheck
    | _ => cases hpoint.symm.trans ‹job.point = _›
  · obtain ⟨use, tail, status, hpoint, huse⟩ := Point.lastCheck_cases hlast
    cases h with
    | finishRun hcheck =>
        cases hpoint.symm.trans hcheck
        obtain ⟨hrequest, hcases⟩ := closes_finishRun huse hsettings hcomplete
        exact ⟨hrequest, .inl ⟨rfl, hcases⟩⟩
    | halt => cases hcomplete
    | _ => cases hpoint.symm.trans ‹job.point = _›

theorem Goes.fate?_isSome_of_closes (h : Goes isCancelled job request answer job') (hcloses : job.Closes) :
    job'.point.fate?.isSome = true := by
  rcases Point.closing_cases hcloses.point with ⟨event, hpoint⟩ | hpoint | hlast
  · rw [h.fate?_eq (by rw [hpoint]; rfl)]
    rfl
  · rw [h.fate?_eq (by rw [hpoint]; rfl)]
    rfl
  · exact h.fate?_isSome hlast

end Job

namespace Service

variable {initial service after final : Service} {id : Nat} {task : Task} {move : Move} {moves : List Move}
  {output : Path}

/-- When the job in the slot has nothing left but to give it back, nobody has anything else to do. -/
theorem Exclusive.isQuiet (h : service.Exclusive) (htask : service.tasks[id]? = some task) {outcome : Outcome}
    (hpoint : task.job.point = .release outcome) : service.IsQuiet := by
  intro other mover hmover
  cases hover : mover.job.point.isOver with
  | true => exact Point.isQuiet_of_isOver hover
  | false =>
      have hslot := (h.slot htask).mpr (by rw [hpoint]; rfl)
      cases hslot.symm.trans ((h.slot hmover).mpr hover)
      cases htask.symm.trans hmover
      rw [hpoint]
      rfl

theorem files_withFiles (service : Service) (files : Except FileError FileTree) :
    (service.withFiles files).files = files.toOption.getD service.files := by
  cases files <;> rfl

theorem files_of_sheet {path : Path} {text : String} {written : Unit}
    (h : service.answer id task (.writeSheet path text) = some (written, after)) :
    after.files = (service.files.write path text).toOption.getD service.files := by
  cases h
  exact files_withFiles service _

/-- A step of a job that closes and is to complete. -/
theorem Moves.closes (h : service.Moves (.job id) after) (hspeaks : service.Speaks)
    (htask : service.tasks[id]? = some task) (hcloses : task.job.Closes) {moves : List Move}
    (hrun : after.moves? moves = some final) (hended : final.outcome? id = some (.completed output)) :
    ∃ task', after.tasks[id]? = some task' ∧ task'.job.request = task.job.request ∧
      (task'.job.Closes ∧ after.files = service.files ∨
        task'.job.point = .release (.completed task'.job.request.output) ∧
          after.files = task.job.closed service.files) := by
  have hspeaks' := h.speaks hspeaks
  cases h with
  | @job _ _ request answer between job hmover hgoes hanswer =>
      cases htask.symm.trans hmover
      obtain ⟨task', htask', -⟩ := exists_face_eq (answered_of_answer hanswer).faces htask
      have hafter : (between.update id fun task => { task with job }).tasks[id]? = some { task' with job } := by
        rw [getElem?_update, if_pos rfl, htask', Option.map_some]
      have hcomplete : job.point.fate? = some .complete := by
        obtain ⟨phase, hfate⟩ := Option.isSome_iff_exists.mp (hgoes.fate?_isSome_of_closes hcloses)
        obtain ⟨told, last, hlast, hreaches, -⟩ := reaches_of_moves? hspeaks' hafter hrun
        have hphase := hreaches.fate?_eq hfate
        rw [outcome?_eq_some hended hlast] at hphase
        exact hfate.trans hphase.symm
      obtain ⟨hrequest, hcases⟩ := hgoes.closes_cases hcloses hcomplete
      refine ⟨_, hafter, hrequest, ?_⟩
      rcases hcases with ⟨hreads, hnext | ⟨hpoint, hsheet⟩⟩ | ⟨rfl, hpoint, hsheet⟩
      · have hfiles : between.files = service.files := files_of_answer hreads hanswer
        exact .inl ⟨hnext, hfiles⟩
      · have hfiles : between.files = service.files := files_of_answer hreads hanswer
        refine .inr ⟨hrequest ▸ hpoint, ?_⟩
        rw [Job.closed, hsheet, if_neg Bool.false_ne_true]
        exact hfiles
      · refine .inr ⟨hrequest ▸ hpoint, ?_⟩
        have hfiles : between.files = _ := files_of_sheet hanswer
        rw [Job.closed, if_pos hsheet]
        exact hfiles

/-- The files of a job that has completed are those of its last look, with the cue sheet if there is
to be one. -/
theorem files_of_closes (hspeaks : service.Speaks) (horderly : service.Orderly) (hvacates : service.Vacates)
    (htask : service.tasks[id]? = some task) (hcloses : task.job.Closes) (hrun : service.moves? moves = some final)
    (hended : final.outcome? id = some (.completed output)) (hlength : final.tasks.length = service.tasks.length) :
    output = task.job.request.output ∧ final.files = task.job.closed service.files := by
  -- forward along the run: the job closes until one of its steps takes it to the release of the slot
  induction moves generalizing service task with
  | nil =>
      cases hrun
      have hclosing := hcloses.point
      rw [outcome?_eq_some hended htask] at hclosing
      cases hclosing
  | cons move moves ih =>
      rw [moves?_cons] at hrun
      obtain ⟨after, hmove, hbehind⟩ := Option.bind_eq_some_iff.mp hrun
      have hmoves := moves_of_move? hmove
      have hspeaks' := hmoves.speaks hspeaks
      have horderly' := hmoves.orderly horderly
      have hvacates' := hmoves.vacates hspeaks hvacates
      have hlength' : final.tasks.length = after.tasks.length := by
        have hbelow := hmoves.length_le
        have habove := length_le_of_moves? hbehind
        omega
      cases hother : move.isStepOf id with
      | false =>
          obtain ⟨told, task', htask', hevolves, -⟩ := hmoves.evolves hspeaks htask
          have hjob : task'.job = task.job := by
            rcases hevolves.job_cases with ⟨hjob, -⟩ | ⟨rfl, -⟩
            · exact hjob
            · rw [Move.isStepOf, beq_self_eq_true] at hother
              cases hother
          have hfiles := hmoves.files_of_rest horderly (horderly.exclusive hvacates) htask
            (Point.not_isOver_of_isClosing hcloses.point) (Point.not_runsEngine_of_isClosing hcloses.point) hother
          have hend := ih hspeaks' horderly' hvacates' htask' (hjob ▸ hcloses) hbehind hlength'
          rwa [hjob, hfiles] at hend
      | true =>
          obtain rfl : move = .job id := by
            cases move with
            | job other => exact congrArg Move.job (beq_iff_eq.mp hother)
            | _ => cases hother
          obtain ⟨task', htask', hrequest, ⟨hnext, hfiles⟩ | ⟨hpoint, hfiles⟩⟩ :=
            hmoves.closes hspeaks htask hcloses hbehind hended
          · have hend := ih hspeaks' horderly' hvacates' htask' hnext hbehind hlength'
            rwa [Job.closed_of_request hrequest, hrequest, hfiles] at hend
          · have hquiet : after.IsQuiet := (horderly'.exclusive hvacates').isQuiet htask' hpoint
            obtain ⟨told, last, hlast, hreaches, -⟩ := reaches_of_moves? hspeaks' htask' hbehind
            have hfinishes : task'.job.Finishes last.job.point told := by
              refine hreaches.finishes ?_
              rw [hpoint]
              exact .release
            have houtput := (outcome?_of_finishes hlast hfinishes hended).1
            rw [hrequest] at houtput
            exact ⟨Outcome.completed.inj houtput,
              (files_of_quiet hspeaks' horderly' hquiet hbehind hlength').trans hfiles⟩

/-- **The rendered audio.** A job that keeps no settings and has completed has looked once, for the
last time, whether it has been cancelled, when its encoder was gone. What is read at its output has
been the same ever since, unless another job has been started, just when its cue sheet has not taken
the place of the audio: no sheet is to be written, or its path is not the output, or it cannot be
written there, or it says what the encoder has left. -/
theorem read_of_completed (hfresh : initial.IsFresh) (hrun : initial.moves? moves = some final)
    (htask : final.tasks[id]? = some task) (hsettings : task.job.settingsFile = none)
    (hended : final.outcome? id = some (.completed output)) (hlast : final.tasks.length = id + 1) :
    output = task.job.request.output ∧ initial.Made moves (LooksLast id) ∧
    ∀ earlier later left encoded, moves = earlier ++ later → initial.moves? earlier = some left →
      left.tasks[id]? = some encoded → encoded.job.point.isLastCheck = true →
        encoded.run = none ∧
        ((final.files.read output).toOption = (left.files.read output).toOption ↔
          (encoded.job.request.settings.writesCueSheet = true → CueSheet.pathBeside output = output →
            ∀ tree, left.files.write output encoded.job.sheetText = .ok tree →
              left.files.read output = .ok encoded.job.sheetText)) := by
  have hpoint := outcome?_eq_some hended htask
  have hlook : initial.Made moves (LooksLast id) := made_of_complete hfresh hrun htask (by rw [hpoint]; rfl)
  have hclosed : ∀ {earlier later : List Move} {left : Service} {encoded : Task}, moves = earlier ++ later →
      initial.moves? earlier = some left → left.tasks[id]? = some encoded → encoded.job.point.isLastCheck = true →
        encoded.run = none ∧ output = encoded.job.request.output ∧ encoded.job.Keeps task.job ∧
          final.files = encoded.job.closed left.files := by
    intro earlier later left encoded hmoves hearlier hencoded hcheck
    have hlater : left.moves? later = some final := by
      rw [hmoves, moves?_append, hearlier] at hrun
      exact hrun
    have hspeaks := speaks_of_moves? hfresh hearlier
    have horderly := orderly_of_moves? hfresh hearlier
    obtain ⟨told, last, hlast', hreaches, -⟩ := reaches_of_moves? hspeaks hencoded hlater
    cases htask.symm.trans hlast'
    have hclosing : encoded.job.point.isClosing = true := Point.isClosing_of_isLastCheck hcheck
    have hcloses : encoded.job.Closes := ⟨hclosing, hreaches.keeps.settingsFile ▸ hsettings, .inl hcheck⟩
    have hlength : final.tasks.length = left.tasks.length := by
      have hbelow := (List.getElem?_eq_some_iff.mp hencoded).1
      have habove := length_le_of_moves? hlater
      omega
    have hnone : encoded.run = none := by
      refine Option.not_isSome_iff_eq_none.mp fun hrunning => ?_
      cases (Point.not_runsEngine_of_isClosing hclosing).symm.trans (horderly.running hencoded hrunning)
    obtain ⟨houtput, hfiles⟩ := files_of_closes hspeaks horderly (vacates_of_moves? hfresh hearlier) hencoded hcloses
      hlater hended hlength
    exact ⟨hnone, houtput, hreaches.keeps, hfiles⟩
  refine ⟨?_, hlook, ?_⟩
  · obtain ⟨earlier, move, later, left, hmoves, hearlier, -, encoded, hencoded, hcheck⟩ := hlook
    obtain ⟨-, houtput, hkeeps, -⟩ := hclosed hmoves hearlier hencoded hcheck
    exact houtput.trans hkeeps.output.symm
  · intro earlier later left encoded hmoves hearlier hencoded hcheck
    obtain ⟨hnone, rfl, -, hfiles⟩ := hclosed hmoves hearlier hencoded hcheck
    rw [hfiles]
    exact ⟨hnone, encoded.job.read_closed left.files⟩

theorem read_of_completed_besideSheet :
    ∃ left encoded final task, equippedToRender.IsFresh ∧
      equippedToRender.moves? (rendered ⟨"night.flac"⟩ 2) = some left ∧ left.tasks[0]? = some encoded ∧
      encoded.job.point.isLastCheck = true ∧ left.files.read ⟨"night.flac"⟩ = .ok "AUDIO" ∧
      equippedToRender.moves? (rendered ⟨"night.flac"⟩ 8) = some final ∧ final.tasks[0]? = some task ∧
      task.job.settingsFile = none ∧ final.outcome? 0 = some (.completed ⟨"night.flac"⟩) ∧
      final.tasks.length = 0 + 1 ∧ final.files.read ⟨"night.cue"⟩ = .ok encoded.job.sheetText ∧
      final.files.read ⟨"night.flac"⟩ = .ok "AUDIO" := by
  obtain ⟨left, hleft, encoded, hencoded, final, hfinal, task, htask, hcheck, hread, hsettings, hended, hlast, hsheet⟩ :
      ∃ left ∈ equippedToRender.moves? (rendered ⟨"night.flac"⟩ 2), ∃ encoded ∈ left.tasks[0]?,
        ∃ final ∈ equippedToRender.moves? (rendered ⟨"night.flac"⟩ 8), ∃ task ∈ final.tasks[0]?,
          encoded.job.point.isLastCheck = true ∧ left.files.read ⟨"night.flac"⟩ = .ok "AUDIO" ∧
          task.job.settingsFile = none ∧ final.outcome? 0 = some (.completed ⟨"night.flac"⟩) ∧
          final.tasks.length = 0 + 1 ∧ final.files.read ⟨"night.cue"⟩ = .ok encoded.job.sheetText := by
    decide +kernel
  obtain ⟨-, -, hkept⟩ := read_of_completed isFresh_equippedToRender hfinal htask hsettings hended hlast
  obtain ⟨-, hiff⟩ := hkept _ (List.replicate 6 (.job 0)) left encoded rfl hleft hencoded hcheck
  have hsame := hiff.mpr fun _ hplace => absurd hplace (by decide +kernel)
  rw [hread] at hsame
  exact ⟨left, encoded, final, task, isFresh_equippedToRender, hleft, hencoded, hcheck, hread, hfinal, htask, hsettings,
    hended, hlast, hsheet, toOption_eq_some.mp hsame⟩

/-- Audio that is rendered to a path with the extension of cue sheets is lost to the cue sheet. -/
theorem lost_of_sheetInPlace :
    equippedToRender.IsFresh ∧ equippedToRender.settingsFile = none ∧
    ∃ left ∈ equippedToRender.moves? (rendered ⟨"night.cue"⟩ 2), ∃ encoded ∈ left.tasks[0]?,
      ∃ final ∈ equippedToRender.moves? (rendered ⟨"night.cue"⟩ 8),
        encoded.job.point.isLastCheck = true ∧ encoded.run = none ∧ left.files.read ⟨"night.cue"⟩ = .ok "AUDIO" ∧
        final.outcome? 0 = some (.completed ⟨"night.cue"⟩) ∧
        final.files.read ⟨"night.cue"⟩ = .ok encoded.job.sheetText ∧ encoded.job.sheetText ≠ "AUDIO" :=
  ⟨isFresh_equippedToRender, rfl, by decide +kernel⟩

end Service

end Segue
