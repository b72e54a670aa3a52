import Segue.Proofs.Job.Cancellation
import Segue.Proofs.Job.Exclusion

/-!
What is left to a job that has given back the slot. Main statement: its engine is gone, all its
files have been written or removed, and nothing that it still does touches anything but itself and
its last event; so no event tells of an end before the slot is free, and the files change only by
what the job in the slot does.
-/

namespace Segue

/-- A job at a point is over and ends in a way, of which it may have to tell yet. -/
def Point.Concludes (outcome : Outcome) : Point → Prop
  | .announce event next => event.announcement = outcome.announcement ∧ next = .close outcome
  | .close ending | .ended ending => ending = outcome
  | _ => False

/-- What a job that is over has yet to tell. -/
def Point.lastWords : Point → List Announcement
  | .announce event _ => [event.announcement]
  | _ => []

/-- Whether the audio and the cue sheet of a job, if any, are written. -/
def Point.isFiled : Point → Bool
  | .announce _ next => next.isFiled
  | .readSettings _ | .stampSettings _ _ | .makeSettingsDirectory _ _ | .writeSettings _ _ => true
  | .release (.completed _) | .close (.completed _) | .ended (.completed _) => true
  | _ => false

/-- Whether all files of a job are written. -/
def Point.isStored : Point → Bool
  | .announce _ next => next.isStored
  | .release (.completed _) | .close (.completed _) | .ended (.completed _) => true
  | _ => false

/-- The file of the settings that a job is busy with. -/
def Point.settingsFile? : Point → Option Path
  | .announce _ next => next.settingsFile?
  | .readSettings file | .stampSettings file _ | .makeSettingsDirectory file _ | .writeSettings file _ => some file
  | _ => none

theorem Point.not_isFiled_of_isPreparing {point : Point} (h : point.isPreparing = true) : point.isFiled = false := by
  induction point with
  | announce event next ih => exact ih h
  | release outcome =>
      cases outcome with
      | failed => rfl
      | completed | cancelled => cases h
  | readSettings | stampSettings | makeSettingsDirectory | writeSettings | close | ended => cases h
  | _ => rfl

theorem Point.isFiled_of_isStored {point : Point} (h : point.isStored = true) : point.isFiled = true := by
  induction point with
  | announce event next ih => exact ih h
  | release outcome | close outcome | ended outcome =>
      cases outcome with
      | completed => rfl
      | failed | cancelled => cases h
  | _ => cases h

theorem Point.isFiled_of_settingsFile? {point : Point} {file : Path} (h : point.settingsFile? = some file) :
    point.isFiled = true := by
  induction point with
  | announce event next ih => exact ih h
  | readSettings | stampSettings | makeSettingsDirectory | writeSettings => rfl
  | _ => cases h

theorem Point.not_isFiled_of_isCheck {point : Point} (h : point.isCheck = true) : point.isFiled = false := by
  rcases Point.check_cases h with ⟨_, rfl⟩ | ⟨_, rfl⟩ | ⟨_, rfl⟩ | ⟨_, _, rfl⟩ | ⟨_, _, _, rfl⟩ <;> rfl

/-- Whether a move is one of a job or of its engine. -/
def Move.isOf (id : Nat) : Move → Bool
  | .job other | .engine other | .resume other => other == id
  | _ => false

namespace Point.Concludes

variable {point : Point} {outcome : Outcome}

theorem isOver (h : point.Concludes outcome) : point.isOver = true := by
  cases point with
  | announce event next =>
      obtain ⟨-, rfl⟩ := h
      rfl
  | close | ended => rfl
  | _ => exact h.elim

theorem fate? (h : point.Concludes outcome) : point.fate? = some outcome.phase := by
  cases point with
  | announce event next =>
      obtain ⟨-, rfl⟩ := h
      rfl
  | close | ended =>
      cases (h : _ = _)
      rfl
  | _ => exact h.elim

theorem isStored {output : Path} (h : point.Concludes (.completed output)) : point.isStored = true := by
  cases point with
  | announce event next =>
      obtain ⟨-, rfl⟩ := h
      rfl
  | close | ended =>
      cases (h : _ = _)
      rfl
  | _ => exact h.elim

theorem lastWords (h : point.Concludes outcome) : point.lastWords <+: [outcome.announcement] := by
  cases point with
  | announce event next =>
      obtain ⟨htold, -⟩ := h
      exact ⟨[], congrArg (fun told => [told]) htold⟩
  | close | ended => exact List.nil_prefix
  | _ => exact h.elim

end Point.Concludes

/-- Of a job that is not over, no end has been told. -/
theorem Point.Follows.unended {request : ExportRequest} {now : Phase} {point : Point} {told : List Announcement}
    (h : point.Follows request now told) (hbusy : point.isOver = false) :
    ∀ announcement ∈ told, announcement.phase.isTerminal = false := by
  have hinterrupts : ∀ {told}, request.Interrupts told →
      ∀ announcement ∈ told, announcement.phase.isTerminal = false := by
    rintro told ⟨reports, hpre⟩ announcement hmem
    exact (ExportRequest.mem_audioCourse (hpre.subset hmem)).1
  induction point generalizing told with
  | enter phase => exact hinterrupts (Phase.Follows.interrupts h)
  | announce event next ih =>
      intro announcement hmem
      exact ih h hbusy announcement (List.mem_append_left _ hmem)
  | checkSource | checkEngine =>
      cases (h : told = _)
      exact hinterrupts ExportRequest.interrupts_validating
  | beforeMeasuring | afterMeasuring | makeDirectory | engine => exact hinterrupts (EngineUse.Follows.interrupts h)
  | writeSheet | readSettings | stampSettings | makeSettingsDirectory | writeSettings =>
      obtain ⟨reports, rfl⟩ := h
      exact fun announcement hmem => (ExportRequest.mem_course hmem).1
  | removeOutput => exact hinterrupts h
  | release outcome =>
      obtain ⟨reports, htold⟩ := ExportRequest.Allows.going h
      exact fun announcement hmem => (htold.unended announcement hmem).1
  | close | ended => cases hbusy

namespace Job

variable {job job' : Job} {isCancelled : Bool} {request : Request} {answer : request.Answer} {outcome : Outcome}

/-- Whoever comes to be over concludes in some way. -/
theorem Goes.concludes (h : Goes isCancelled job request answer job')
    (hbefore : job.point.isOver = true → ∃ outcome, job.point.Concludes outcome) (hover : job'.point.isOver = true) :
    ∃ outcome, job'.point.Concludes outcome := by
  rcases h.isOver_cases hover with ⟨event, next, hpoint, -, rfl⟩ | ⟨outcome, -, -, rfl⟩ | ⟨outcome, -, -, rfl⟩
  · rw [hpoint] at hbefore
    obtain ⟨outcome, -, rfl⟩ := hbefore hover
    exact ⟨outcome, rfl⟩
  · exact ⟨outcome, rfl, rfl⟩
  · exact ⟨outcome, rfl⟩

theorem Reaches.concludes {first : Job} {told : List Event} (h : first.Reaches told job)
    (hfirst : first.point.isOver = false) (hover : job.point.isOver = true) :
    ∃ outcome, job.point.Concludes outcome := by
  induction h with
  | refl => cases hfirst.symm.trans hover
  | go _ hgoes ih => exact hgoes.concludes ih hover

/-- Who concludes in some way does nothing but to tell of that. -/
theorem Goes.conclusion (h : Goes isCancelled job request answer job') (hconcludes : job.point.Concludes outcome) :
    job'.point.Concludes outcome ∧
      job.point.lastWords = request.announced.map Event.announcement ++ job'.point.lastWords := by
  have hover := hconcludes.isOver
  rcases h.isOver_cases (h.isOver hover) with ⟨event, next, hpoint, rfl, rfl⟩ | ⟨ending, hpoint, -, -⟩ |
    ⟨ending, hpoint, rfl, rfl⟩
  · rw [hpoint] at hconcludes ⊢
    obtain ⟨-, rfl⟩ := hconcludes
    exact ⟨rfl, rfl⟩
  · rw [hpoint] at hover
    cases hover
  · rw [hpoint] at hconcludes ⊢
    exact ⟨hconcludes, rfl⟩

theorem Reaches.conclusion {told : List Event} (h : job.Reaches told job') (hconcludes : job.point.Concludes outcome) :
    job'.point.Concludes outcome ∧ job.point.lastWords = told.map Event.announcement ++ job'.point.lastWords := by
  induction h with
  | refl => exact ⟨hconcludes, rfl⟩
  | go _ hgoes ih =>
      obtain ⟨hbetween, hwords⟩ := ih
      obtain ⟨hafter, hrest⟩ := hgoes.conclusion hbetween
      rw [hrest, ← List.append_assoc, ← List.map_append] at hwords
      exact ⟨hafter, hwords⟩

theorem request_persist (job : Job) : job.persist.request = job.request := by
  unfold persist
  split <;> rfl

theorem isStored_persist (h : job.persist.point.isStored = true) : job.settingsFile = none := by
  unfold persist at h
  split at h
  · cases h
  · assumption

theorem settingsFile?_persist {file : Path} (h : job.persist.point.settingsFile? = some file) :
    job.settingsFile = some file := by
  unfold persist at h
  split at h
  · rename_i hfile
    exact hfile.trans h
  · cases h

/-- The cue sheet is written before anything is made of the settings, if there is to be one. -/
theorem Goes.isFiled_cases (h : Goes isCancelled job request answer job') (hfiled : job'.point.isFiled = true) :
    job.point.isFiled = true ∧ job'.request = job.request ∨
      (∃ before : Job, job.Keeps before ∧ before.request = job.request ∧ job' = before.persist) ∧
        (request = .writeSheet (CueSheet.pathBeside job.request.output) job.sheetText ∨
          job.request.settings.writesCueSheet = false) := by
  have hnot : job'.point.isFiled ≠ false := by simp [hfiled]
  cases h with
  | announce hpoint =>
      rw [hpoint]
      exact .inl ⟨hfiled, rfl⟩
  | enter hpoint => exact (hnot (Point.not_isFiled_of_isPreparing (isPreparing_enter job hpoint))).elim
  | checkSource => exact (hnot (Point.not_isFiled_of_isPreparing (isPreparing_checkSources job _ _))).elim
  | measured => exact (hnot (Point.not_isFiled_of_isPreparing (isPreparing_measureFrom _ _))).elim
  | @heard use tail hpoint hcancelled bytes elapsed =>
      obtain ⟨_, _, -, heq | ⟨_, heq⟩⟩ := hear_cases job use tail (Text.decodeLossy bytes) elapsed
      · exact (hnot (by rw [heq]; rfl)).elim
      · exact (hnot (by rw [heq]; rfl)).elim
  | @finishRun use tail status hpoint =>
      cases huse : use.isEncoding with
      | false =>
          cases use with
          | measuring =>
              exact (hnot (Point.not_isFiled_of_isPreparing (isPreparing_finishRun_measuring job _ _ _ _))).elim
          | encoding => cases huse
      | true =>
          rcases finishRun_encoding_cases job huse tail status with ⟨_, heq⟩ | ⟨_, heq⟩ | ⟨hsheet, heq⟩
          · exact (hnot (by rw [heq]; rfl)).elim
          · exact (hnot (by rw [heq]; rfl)).elim
          · exact .inr ⟨⟨{ job with percent := 100.0 }, ⟨rfl, rfl, rfl, rfl, rfl⟩, rfl, heq⟩, .inr hsheet⟩
  | sheetWritten hpoint => exact .inr ⟨⟨job, Keeps.goTo job _, rfl, rfl⟩, .inl rfl⟩
  | @settingsStamped file config hpoint =>
      rw [hpoint]
      refine .inl ⟨rfl, ?_⟩
      unfold storeSettings
      split <;> rfl
  | settingsRead hpoint | settingsPlaceMade hpoint | settingsPlaceRefused hpoint | settingsWritten hpoint =>
      rw [hpoint]
      exact .inl ⟨rfl, rfl⟩
  | @released outcome hpoint | @closed outcome hpoint =>
      rw [hpoint]
      cases outcome with
      | completed => exact .inl ⟨rfl, rfl⟩
      | failed | cancelled => cases hfiled
  | _ => exact (hnot rfl).elim

/-- A job is busy with no settings but its own. -/
theorem Goes.settingsFile? (h : Goes isCancelled job request answer job') {file : Path}
    (hbefore : ∀ file, job.point.settingsFile? = some file → job.settingsFile = some file)
    (hbusy : job'.point.settingsFile? = some file) : job'.settingsFile = some file := by
  rcases h.isFiled_cases (Point.isFiled_of_settingsFile? hbusy) with ⟨hfiled, -⟩ | ⟨⟨before, hkeeps, -, rfl⟩, -⟩
  · rw [h.keeps.settingsFile]
    refine hbefore file ?_
    cases h with
    | halt hcheck => cases (Point.not_isFiled_of_isCheck hcheck).symm.trans hfiled
    | announce hpoint | settingsRead hpoint | settingsPlaceMade hpoint =>
        rw [hpoint]
        exact hbusy
    | @settingsStamped file' config hpoint =>
        rw [hpoint]
        unfold storeSettings at hbusy
        split at hbusy <;> exact hbusy
    | settingsPlaceRefused | settingsWritten | released | closed => cases hbusy
    | _ =>
        rw [‹job.point = _›] at hfiled
        cases hfiled
  · rw [(Keeps.persist before).settingsFile]
    exact settingsFile?_persist hbusy

theorem Reaches.settingsFile? {first : Job} {told : List Event} (h : first.Reaches told job)
    (hfirst : first.point.settingsFile? = none) {file : Path} (hbusy : job.point.settingsFile? = some file) :
    job.settingsFile = some file := by
  induction h generalizing file with
  | refl => cases hfirst.symm.trans hbusy
  | go _ hgoes ih => exact hgoes.settingsFile? (fun _ => ih) hbusy

end Job

namespace Service

variable {service after : Service} {id : Nat} {task : Task} {move : Move} {moves : List Move} {outcome : Outcome}

/-- A job writes its settings to a file, or cannot make the directory of that file. -/
def Stores (id : Nat) (file : Path) (service : Service) (move : Move) : Prop :=
  (∃ text, Asks id (.writeSettings file text) service move) ∨
    ∃ error, Asks id (.makeSettingsDirectory (file.parent?.getD ⟨""⟩)) service move ∧
      (service.makeDirectories (file.parent?.getD ⟨""⟩)).1 = .error error

/-- All that a job does to the files has been done in a run when it ends in a way. -/
structure Settled (initial : Service) (moves : List Move) (id : Nat) (job : Job) (outcome : Outcome) : Prop where
  removed : outcome = .cancelled → initial.Made moves (Asks id (.removeOutput job.request.output))
  sheet : ∀ output, outcome = .completed output → job.request.settings.writesCueSheet = true →
    initial.Made moves (Asks id (.writeSheet (CueSheet.pathBeside job.request.output) job.sheetText))
  settings : ∀ output file, outcome = .completed output → job.settingsFile = some file →
    initial.Made moves (Stores id file)

theorem Made.imp {kind kind' : Service → Move → Prop} (h : service.Made moves kind)
    (himp : ∀ {earlier between move}, service.moves? earlier = some between → kind between move → kind' between move) :
    service.Made moves kind' := by
  obtain ⟨earlier, move, later, between, hmoves, hearlier, hkind⟩ := h
  exact ⟨earlier, move, later, between, hmoves, hearlier, himp hearlier hkind⟩

section

variable {initial : Service} (hfresh : initial.IsFresh) (hrun : initial.moves? moves = some service)
  (htask : service.tasks[id]? = some task)

include hfresh hrun htask

theorem concludes_of_moves? (hover : task.job.point.isOver = true) : ∃ outcome, task.job.point.Concludes outcome := by
  obtain ⟨request, settingsFile, told, hreaches, -⟩ := reaches_of_fresh hfresh hrun htask
  exact hreaches.concludes rfl hover

/-- A cue sheet that is to be written has been written before the settings. -/
theorem made_sheet (hfiled : task.job.point.isFiled = true)
    (hsheet : task.job.request.settings.writesCueSheet = true) :
    initial.Made moves (Asks id (.writeSheet (CueSheet.pathBeside task.job.request.output) task.job.sheetText)) := by
  refine made_of_goes (p := fun job => job.point.isFiled = true ∧ job.request = task.job.request) hfresh hrun htask
    (fun _ _ h => nomatch h.1) ?_ ⟨hfiled, rfl⟩
  rintro service between mover job' request answer hmover hgoes - ⟨hfiled', hsame⟩
  rcases hgoes.isFiled_cases hfiled' with ⟨hbefore, hrequest⟩ | ⟨⟨before, -, hrequest, rfl⟩, hcases⟩
  · exact .inl ⟨hbefore, hrequest.symm.trans hsame⟩
  · rw [Job.request_persist, hrequest] at hsame
    rcases hcases with hasked | hnone
    · refine .inr ⟨rfl, ?_⟩
      rw [request?_of_goes hmover hgoes, hasked, Job.sheetText, Job.sheetText, hsame]
    · rw [hsame, hsheet] at hnone
      cases hnone

/-- Settings that are to be kept have been written when the job is through. -/
theorem made_settings {file : Path} (hstored : task.job.point.isStored = true)
    (hfile : task.job.settingsFile = some file) : initial.Made moves (Stores id file) := by
  have hmade : initial.Made moves fun service move => ∃ mover file', service.tasks[id]? = some mover ∧
      mover.job.settingsFile = some file ∧ mover.job.point.settingsFile? = some file' ∧
      Stores id file' service move := by
    refine made_of_goes (p := fun job => job.point.isStored = true ∧ job.settingsFile = some file) hfresh hrun htask
      (fun _ _ h => nomatch h.1) ?_ ⟨hstored, hfile⟩
    rintro service between mover job' request answer hmover hgoes hanswer ⟨hstored', hfile'⟩
    rw [hgoes.keeps.settingsFile] at hfile'
    rcases hgoes.isFiled_cases (Point.isFiled_of_isStored hstored') with ⟨hbefore, -⟩ | ⟨⟨before, hkeeps, -, rfl⟩, -⟩
    · have hrequest := request?_of_goes hmover hgoes
      cases hgoes with
      | halt hcheck => cases (Point.not_isFiled_of_isCheck hcheck).symm.trans hbefore
      | announce hpoint =>
          rw [hpoint]
          exact .inl ⟨hstored', hfile'⟩
      | @released ending hpoint | @closed ending hpoint =>
          rw [hpoint]
          cases ending with
          | completed => exact .inl ⟨rfl, hfile'⟩
          | failed | cancelled => cases hstored'
      | @settingsStamped file' =>
          unfold Job.storeSettings at hstored'
          split at hstored' <;> cases hstored'
      | @settingsWritten file' text hpoint =>
          exact .inr ⟨mover, file', hmover, hfile', by rw [hpoint]; rfl, .inl ⟨text, rfl, hrequest⟩⟩
      | @settingsPlaceRefused file' text hpoint error =>
          exact .inr ⟨mover, file', hmover, hfile', by rw [hpoint]; rfl,
            .inr ⟨error, ⟨rfl, hrequest⟩, congrArg Prod.fst (Option.some.inj hanswer)⟩⟩
      | settingsRead | settingsPlaceMade => cases hstored'
      | _ =>
          rw [‹mover.job.point = _›] at hbefore
          cases hbefore
    · rw [← hkeeps.settingsFile, Job.isStored_persist hstored'] at hfile'
      cases hfile'
  -- a job is busy with no settings but its own
  refine hmade.imp fun hearlier hkind => ?_
  obtain ⟨mover, file', hmover, hfile', hbusy, hstores⟩ := hkind
  obtain ⟨request, settingsFile, told, hreaches, -⟩ := reaches_of_fresh hfresh hearlier hmover
  cases hfile'.symm.trans (hreaches.settingsFile? rfl hbusy)
  exact hstores

theorem settled_of_moves? (hconcludes : task.job.point.Concludes outcome) :
    initial.Settled moves id task.job outcome where
  removed := by
    rintro rfl
    exact (made_of_withdrawn hfresh hrun htask hconcludes.fate? (Point.isQuiet_of_isOver hconcludes.isOver)).imp
      fun _ hkind => hkind.2
  sheet := by
    rintro output rfl hsheet
    exact made_sheet hfresh hrun htask (Point.isFiled_of_isStored hconcludes.isStored) hsheet
  settings := by
    rintro output file rfl hfile
    exact made_settings hfresh hrun htask hconcludes.isStored hfile

/-- Who is told that a job has ended finds that the job is over. -/
theorem isOver_of_isTerminal {event : Event} (hevent : event ∈ service.events) (hjob : event.job = id)
    (hterminal : event.phase.isTerminal = true) : task.job.point.isOver = true := by
  obtain ⟨request, settingsFile, told, hreaches, htold⟩ := reaches_of_fresh hfresh hrun htask
  have hmem : event ∈ told := by
    rw [← htold]
    exact List.mem_filter.mpr ⟨hevent, by simpa using hjob⟩
  cases hover : task.job.point.isOver with
  | true => rfl
  | false =>
      have hfalse := (hreaches.follows rfl).unended hover _ (List.mem_map_of_mem hmem)
      cases hterminal.symm.trans hfalse

end

/-! ### What is left to do -/

/-- Nothing happens but that a job goes on, and may tell how it has ended. -/
structure Spares (id : Nat) (outcome : Outcome) (service after : Service) : Prop where
  told : ∃ told : List Event, told.map Event.announcement <+: [outcome.announcement] ∧
    (∀ event ∈ told, event.job = id) ∧ after = { service with tasks := after.tasks, events := service.events ++ told }
  others : ∀ other, other ≠ id → after.tasks[other]? = service.tasks[other]?

theorem Spares.of_update {change : Task → Task} : service.Spares id outcome (service.update id change) where
  told := by
    refine ⟨[], List.nil_prefix, List.forall_mem_nil _, ?_⟩
    rw [List.append_nil]
    rfl
  others := fun other hother => by rw [getElem?_update, if_neg (Ne.symm hother)]

/-- What a job does that has given back the slot touches nothing else. -/
theorem Moves.spares (h : service.Moves move after) (hspeaks : service.Speaks) (htask : service.tasks[id]? = some task)
    (hslot : service.slot ≠ some id) (hrun : task.run = none) (hconcludes : task.job.point.Concludes outcome)
    (hmove : move.isOf id = true) : service.Spares id outcome after := by
  cases h with
  | @job mover _ request answer between job hmover hgoes hanswer =>
      cases (beq_iff_eq.mp hmove : mover = id)
      cases htask.symm.trans hmover
      have hover := hconcludes.isOver
      obtain ⟨hid, hown⟩ := hspeaks.tasks htask
      rcases hgoes.isOver_cases (hgoes.isOver hover) with ⟨event, next, hpoint, rfl, rfl⟩ | ⟨ending, hpoint, -, -⟩ |
        ⟨ending, hpoint, rfl, rfl⟩
      · cases hanswer
        rw [hpoint] at hconcludes hown
        refine ⟨⟨[event], ?_, ?_, rfl⟩, fun other hother => ?_⟩
        · exact ⟨[], congrArg (fun told => [told]) hconcludes.1⟩
        · rw [List.forall_mem_singleton]
          exact hown.1
        · rw [getElem?_update, if_neg (Ne.symm hother)]
      · rw [hpoint] at hover
        cases hover
      · cases hanswer
        rw [release, if_neg hslot]
        exact .of_update
  | @engine mover _ run run' files hmover hruns =>
      cases (beq_iff_eq.mp hmove : mover = id)
      cases htask.symm.trans hmover
      cases hrun.symm.trans hruns
  | @resume mover =>
      cases (beq_iff_eq.mp hmove : mover = id)
      exact .of_update
  | _ => cases hmove

/-- Files change only by what the job in the slot does, or its engine. -/
theorem Moves.files (h : service.Moves move after) (hexclusive : service.Exclusive)
    (hfiles : after.files ≠ service.files) :
    ∃ id, service.slot = some id ∧ (move = .job id ∨ move = .engine id) := by
  cases h with
  | @job mover task request answer between job htask hgoes hanswer =>
      cases hover : task.job.point.isOver with
      | false => exact ⟨mover, (hexclusive.slot htask).mpr hover, .inl rfl⟩
      | true =>
          have hsame : between.files = service.files :=
            files_of_answer (hgoes.isQuiet (Point.isQuiet_of_isOver hover)).2 hanswer
          exact (hfiles hsame).elim
  | @engine mover task run run' files htask hrun =>
      exact ⟨mover, hexclusive.running htask (by rw [hrun]; rfl), .inr rfl⟩
  | _ => exact (hfiles rfl).elim

/-- While a job is in the slot that runs no engine, the files change by nothing but its steps. -/
theorem Moves.files_of_rest (h : service.Moves move after) (horderly : service.Orderly) (hexclusive : service.Exclusive)
    (htask : service.tasks[id]? = some task) (hbusy : task.job.point.isOver = false)
    (hidle : task.job.point.runsEngine = false) (hother : move.isStepOf id = false) : after.files = service.files := by
  refine Decidable.byContradiction fun hfiles => ?_
  obtain ⟨mover, hslot, rfl | rfl⟩ := h.files hexclusive hfiles
  · cases ((hexclusive.slot htask).mpr hbusy).symm.trans hslot
    rw [Move.isStepOf, beq_self_eq_true] at hother
    cases hother
  · cases ((hexclusive.slot htask).mpr hbusy).symm.trans hslot
    cases h with
    | @engine _ mover run run' files hmover hrun =>
        cases htask.symm.trans hmover
        have hruns := horderly.running htask (by rw [hrun]; rfl)
        cases hidle.symm.trans hruns

/-- While a job that runs no engine only looks at the files, they stay as they are. -/
theorem Moves.files_eq (h : service.Moves move after) (horderly : service.Orderly) (hexclusive : service.Exclusive)
    (htask : service.tasks[id]? = some task) (hbusy : task.job.point.isOver = false)
    (hidle : task.job.point.runsEngine = false)
    (hreads : ∀ {request : Request} {answer : request.Answer} {job' : Job},
      Job.Goes task.isCancelled task.job request answer job' → request.isReadOnly = true) :
    after.files = service.files := by
  cases hother : move.isStepOf id with
  | false => exact h.files_of_rest horderly hexclusive htask hbusy hidle hother
  | true =>
      cases h with
      | @job mover _ request answer between job hmover hgoes hanswer =>
          cases (beq_iff_eq.mp hother : mover = id)
          cases htask.symm.trans hmover
          have hsame : between.files = service.files := files_of_answer (hreads hgoes) hanswer
          exact hsame
      | _ => cases hother

/-- **Giving back the slot.** At every moment of every run: no event tells of an end before the slot
is free of that job, and files change only by what the job in the slot or its engine does. A job
that does not occupy the slot has no engine any more and has written or removed all its files;
whatever is still done for it touches nothing but itself and one last event; and so it stays. -/
theorem released_of_moves? {initial : Service} (hfresh : initial.IsFresh) (hrun : initial.moves? moves = some service) :
    (∀ event ∈ service.events, event.phase.isTerminal = true → service.slot ≠ some event.job) ∧
    (∀ move after, service.move? move = some after → after.files ≠ service.files →
      ∃ id, service.slot = some id ∧ (move = .job id ∨ move = .engine id)) ∧
    ∀ id task, service.tasks[id]? = some task → service.slot ≠ some id →
      task.run = none ∧
      ∃ outcome, task.job.point.Concludes outcome ∧ initial.Settled moves id task.job outcome ∧
        (∀ move after, move.isOf id = true → service.move? move = some after → service.Spares id outcome after) ∧
        ∀ later final, service.moves? later = some final →
          final.slot ≠ some id ∧ (∀ ending, final.outcome? id = some ending → ending = outcome) ∧
          ∃ told, final.eventsOf id = service.eventsOf id ++ told ∧
            told.map Event.announcement <+: [outcome.announcement] := by
  have hspeaks := speaks_of_moves? hfresh hrun
  have hexclusive := (orderly_of_moves? hfresh hrun).exclusive (vacates_of_moves? hfresh hrun)
  refine ⟨?_, fun move after hmove => (moves_of_move? hmove).files hexclusive, ?_⟩
  · intro event hevent hterminal
    obtain ⟨task, htask⟩ : ∃ task, service.tasks[event.job]? = some task :=
      ⟨_, List.getElem?_eq_getElem (hspeaks.events event hevent)⟩
    exact (vacates_of_moves? hfresh hrun).gone htask (isOver_of_isTerminal hfresh hrun htask hevent rfl hterminal)
  · intro id task htask hslot
    have hover : task.job.point.isOver = true :=
      Bool.of_not_eq_false fun hbusy => hslot ((hexclusive.slot htask).mpr hbusy)
    have hnone : task.run = none :=
      Option.not_isSome_iff_eq_none.mp fun hrunning => hslot (hexclusive.running htask hrunning)
    obtain ⟨outcome, hconcludes⟩ := concludes_of_moves? hfresh hrun htask hover
    refine ⟨hnone, outcome, hconcludes, settled_of_moves? hfresh hrun htask hconcludes, ?_, ?_⟩
    · intro move after hmove hmade
      exact (moves_of_move? hmade).spares hspeaks htask hslot hnone hconcludes hmove
    · intro later final hlater
      have hrun' : initial.moves? (moves ++ later) = some final := by
        rw [moves?_append, hrun, Option.bind_some, hlater]
      obtain ⟨told, task', htask', hreaches, htold⟩ := reaches_of_moves? hspeaks htask hlater
      obtain ⟨hconcludes', hwords⟩ := hreaches.conclusion hconcludes
      refine ⟨(vacates_of_moves? hfresh hrun').gone htask' hconcludes'.isOver, ?_, told, htold, ?_⟩
      · intro ending hended
        rw [outcome?_eq_some hended htask'] at hconcludes'
        exact hconcludes'
      · have hwords' : told.map Event.announcement <+: task.job.point.lastWords := ⟨_, hwords.symm⟩
        exact hwords'.trans hconcludes.lastWords

/-- Where the next job has been started before the end of the first one is told. -/
def startedAgain : List Move := [.start evening, .cancel, .job 0, .job 0, .job 0, .start evening]

theorem released_of_moves?_startedAgain :
    ∃ service task, cluttered.IsFresh ∧ cluttered.moves? startedAgain = some service ∧
      service.tasks[0]? = some task ∧ service.slot = some 1 ∧ task.run = none ∧
      ∃ outcome, task.job.point.Concludes outcome ∧ cluttered.Settled startedAgain 0 task.job outcome ∧
        (∀ move after, move.isOf 0 = true → service.move? move = some after → service.Spares 0 outcome after) ∧
        ∀ later final, service.moves? later = some final →
          final.slot ≠ some 0 ∧ (∀ ending, final.outcome? 0 = some ending → ending = outcome) ∧
          ∃ told, final.eventsOf 0 = service.eventsOf 0 ++ told ∧
            told.map Event.announcement <+: [outcome.announcement] := by
  have hfresh : cluttered.IsFresh := ⟨rfl, rfl, rfl⟩
  exact ⟨_, _, hfresh, rfl, rfl, rfl,
    (@released_of_moves? _ startedAgain cluttered hfresh rfl).2.2 0 _ rfl (by decide)⟩

end Service

end Segue
