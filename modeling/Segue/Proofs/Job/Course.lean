import Segue.Proofs.Job.History

/-!
What observers are told of a job. Main statement: the notices of a job follow one course, which
depends on its settings and on the titles of its tracks, and break off anywhere before the cue sheet
with a failure or a cancellation, or go on to its end; the last one agrees with how the job ends.
-/

namespace Segue

/-- What observers are told in one event, apart from how far the job is. -/
structure Announcement where
  phase : Phase
  message : Option String
  output : Option Path
  deriving Repr, DecidableEq

def Event.announcement (event : Event) : Announcement where
  phase := event.phase
  message := event.message
  output := event.output

def Phase.announcement (phase : Phase) : Announcement where
  phase := phase
  message := none
  output := none

def Announcement.analyzed (title : String) : Announcement where
  phase := .analyzing
  message := some ("Analyzed " ++ title)
  output := none

def Outcome.announcement (outcome : Outcome) : Announcement where
  phase := outcome.phase
  message := some outcome.message
  output := outcome.output?

/-- What is told until the tracks with some titles have been measured. -/
def measuringCourse (titles : List String) : List Announcement :=
  Phase.validating.announcement :: Phase.analyzing.announcement :: titles.map Announcement.analyzed

namespace ExportRequest

variable (request : ExportRequest)

def titles : List String := request.mix.project.tracks.map Track.title

/-- What is told before rendering. -/
def earlyCourse : List Announcement :=
  if request.settings.normalize then measuringCourse request.titles else [Phase.validating.announcement]

/-- What is told until the audio is there, with some number of reports on the way. -/
def audioCourse (reports : Nat) : List Announcement :=
  request.earlyCourse ++ Phase.rendering.announcement :: List.replicate reports Phase.rendering.announcement

/-- What is told before the last notice of a job that completes. -/
def course (reports : Nat) : List Announcement :=
  request.audioCourse reports ++ if request.settings.writesCueSheet then [Phase.cue.announcement] else []

/-- The course may break off here. -/
def Interrupts (told : List Announcement) : Prop := ∃ reports, told <+: request.audioCourse reports

/-- A job of which this has been told may end in a way. -/
def Allows (told : List Announcement) : Outcome → Prop
  | .completed output => output = request.output ∧ ∃ reports, told = request.course reports
  | .failed _ | .cancelled => request.Interrupts told

variable {request}

theorem interrupts_nil : request.Interrupts [] := ⟨0, List.nil_prefix⟩

theorem interrupts_earlyCourse : request.Interrupts request.earlyCourse := ⟨0, List.prefix_append _ _⟩

theorem interrupts_audioCourse (reports : Nat) : request.Interrupts (request.audioCourse reports) :=
  ⟨reports, List.prefix_refl _⟩

theorem interrupts_measuringCourse (hnormalize : request.settings.normalize = true) (count : Nat) :
    request.Interrupts (measuringCourse (request.titles.take count)) := by
  have hearly : measuringCourse (request.titles.take count) <+: request.earlyCourse := by
    rw [earlyCourse, if_pos hnormalize]
    exact (List.prefix_append_right_inj [_, _]).mpr ((List.take_prefix _ _).map _)
  exact ⟨0, hearly.trans (List.prefix_append _ _)⟩

theorem interrupts_validating : request.Interrupts [Phase.validating.announcement] := by
  have hearly : [Phase.validating.announcement] <+: request.earlyCourse := by
    rw [earlyCourse]
    split
    · exact List.prefix_append [_] _
    · exact List.prefix_refl _
  exact ⟨0, hearly.trans (List.prefix_append _ _)⟩

end ExportRequest

/-- What has been told before a phase is entered. -/
def Phase.Follows (request : ExportRequest) (told : List Announcement) : Phase → Prop
  | .validating => told = []
  | .analyzing => request.settings.normalize = true ∧ told = [Phase.validating.announcement]
  | .rendering => told = request.earlyCourse
  | _ => False

/-- What has been told when the engine is run by a job in a phase. -/
def EngineUse.Follows (request : ExportRequest) (phase : Phase) (told : List Announcement) : EngineUse → Prop
  | .measuring index _ => phase = .analyzing ∧ request.settings.normalize = true ∧
      index < request.titles.length ∧ told = measuringCourse (request.titles.take index)
  | .encoding .. => ∃ reports, told = request.audioCourse reports

/-- What has been told when a job in a phase is at a point. -/
def Point.Follows (request : ExportRequest) (now : Phase) : Point → List Announcement → Prop
  | .enter phase, told => phase.Follows request told
  | .announce event next, told => next.Follows request now (told ++ [event.announcement])
  | .checkSource .., told | .checkEngine, told => told = [Phase.validating.announcement]
  | .beforeMeasuring index, told | .afterMeasuring index, told =>
    (EngineUse.measuring index []).Follows request now told
  | .makeDirectory _ use, told | .engine use _ _, told => use.Follows request now told
  | .writeSheet, told | .readSettings _, told | .stampSettings _ _, told | .makeSettingsDirectory _ _, told
  | .writeSettings _ _, told => ∃ reports, told = request.course reports
  | .removeOutput, told => request.Allows told .cancelled
  | .release outcome, told => request.Allows told outcome
  | .close outcome, told | .ended outcome, told =>
    ∃ before, told = before ++ [outcome.announcement] ∧ request.Allows before outcome

theorem EngineUse.Follows.interrupts {request : ExportRequest} {now : Phase} {told : List Announcement}
    {use : EngineUse} (h : use.Follows request now told) : request.Interrupts told := by
  cases use with
  | measuring index heard =>
      obtain ⟨-, hnormalize, -, rfl⟩ := h
      exact ExportRequest.interrupts_measuringCourse hnormalize index
  | encoding arguments duration reached =>
      obtain ⟨reports, rfl⟩ := h
      exact ExportRequest.interrupts_audioCourse reports

theorem Phase.Follows.interrupts {request : ExportRequest} {told : List Announcement} {phase : Phase}
    (h : phase.Follows request told) : request.Interrupts told := by
  cases phase with
  | validating => exact (h : told = []) ▸ ExportRequest.interrupts_nil
  | analyzing => exact h.2 ▸ ExportRequest.interrupts_validating
  | rendering => exact (h : told = request.earlyCourse) ▸ ExportRequest.interrupts_earlyCourse
  | _ => exact h.elim

/-- Wherever a job looks whether it has been cancelled, the course may break off. -/
theorem Point.Follows.interrupts {request : ExportRequest} {now : Phase} {told : List Announcement} {point : Point}
    (h : point.Follows request now told) (hcheck : point.isCheck = true) : request.Interrupts told := by
  cases point with
  | enter phase => exact Phase.Follows.interrupts h
  | beforeMeasuring index => exact EngineUse.Follows.interrupts h
  | afterMeasuring index => exact EngineUse.Follows.interrupts h
  | engine use tail stage => exact EngineUse.Follows.interrupts h
  | _ => cases hcheck

namespace Job

variable {request : ExportRequest} {first job job' : Job} {now : Phase} {told : List Announcement}

theorem follows_checkSources (tracks : List (Track Float)) (missing : List String) :
    (job.checkSources tracks missing).point.Follows request now [Phase.validating.announcement] := by
  unfold checkSources
  split
  · rfl
  · split
    · rfl
    · exact ExportRequest.interrupts_validating

/-- Behind the track before an index comes the one of that index, or the next phase. -/
theorem follows_measureFrom (hkeeps : first.Keeps job) (hnormalize : first.request.settings.normalize = true)
    {index : Nat} (hindex : index ≤ first.request.titles.length) :
    (job.measureFrom index).point.Follows first.request .analyzing
      (measuringCourse (first.request.titles.take index)) := by
  have hlength : job.tracks.length = first.request.titles.length := by
    simpa [ExportRequest.titles, tracks] using congrArg List.length hkeeps.titles
  unfold measureFrom
  rw [hlength]
  split
  · rename_i hlt
    exact ⟨rfl, hnormalize, hlt, rfl⟩
  · rename_i hge
    have hall : first.request.titles.take index = first.request.titles := List.take_of_length_le (by omega)
    change measuringCourse _ = first.request.earlyCourse
    rw [hall, ExportRequest.earlyCourse, if_pos hnormalize]

theorem follows_prepare : job.prepare.point.Follows request now (request.audioCourse 0) := by
  have hencoding : ∃ reports, request.audioCourse 0 = request.audioCourse reports := ⟨0, rfl⟩
  unfold prepare
  dsimp only
  split
  · exact ExportRequest.interrupts_audioCourse 0
  · split
    · split
      · exact hencoding
      · exact hencoding
    · exact hencoding

theorem follows_complete (hkeeps : first.Keeps job) (h : ∃ reports, told = first.request.course reports) :
    job.complete.point.Follows first.request now told := ⟨hkeeps.output, h⟩

theorem follows_persist (hkeeps : first.Keeps job) (h : ∃ reports, told = first.request.course reports) :
    job.persist.point.Follows first.request now told := by
  unfold persist
  split
  · exact h
  · exact follows_complete hkeeps h

theorem follows_storeSettings (file : Path) (text : String) (h : ∃ reports, told = request.course reports) :
    (job.storeSettings file text).point.Follows request now told := by
  unfold storeSettings
  split <;> exact h

theorem follows_enter (hkeeps : first.Keeps job) {phase : Phase} (h : phase.Follows first.request told) :
    (job.enter phase).point.Follows first.request (job.enter phase).phase told := by
  cases phase with
  | validating =>
      cases (h : told = [])
      exact follows_checkSources _ _
  | analyzing =>
      obtain ⟨hnormalize, rfl⟩ := h
      exact follows_measureFrom hkeeps hnormalize (Nat.zero_le _)
  | rendering =>
      cases (h : told = first.request.earlyCourse)
      exact follows_prepare
  | _ => exact h.elim

/-- What is heard of the engine is announced while encoding only, as one more report. -/
theorem follows_hear {use : EngineUse} (tail : DiagnosticTail) (piece : List Char) (elapsed : Float)
    (h : use.Follows request job.phase told) :
    (job.hear use tail piece elapsed).point.Follows request (job.hear use tail piece elapsed).phase told := by
  unfold hear
  cases use with
  | measuring index heard => exact h
  | encoding arguments duration reached =>
      dsimp only
      split
      · exact h
      · split
        · exact h
        · obtain ⟨reports, rfl⟩ := h
          refine ⟨reports + 1, ?_⟩
          rw [ExportRequest.audioCourse, ExportRequest.audioCourse, List.replicate_succ', List.append_assoc]
          rfl

theorem follows_finishRun (hkeeps : first.Keeps job) {use : EngineUse} (tail : DiagnosticTail)
    (status : ExitStatus) (h : use.Follows first.request job.phase told) :
    (job.finishRun use tail status).point.Follows first.request (job.finishRun use tail status).phase told := by
  have hinterrupts : first.request.Interrupts told := h.interrupts
  unfold finishRun
  cases use with
  | measuring index heard =>
      dsimp only
      split
      · exact hinterrupts
      · split
        · exact hinterrupts
        · exact h
  | encoding arguments duration reached =>
      obtain ⟨reports, rfl⟩ := h
      dsimp only
      split
      · exact hinterrupts
      · split
        · rename_i hsheet
          rw [hkeeps.settings] at hsheet
          refine ⟨reports, ?_⟩
          rw [ExportRequest.course, if_pos hsheet]
          rfl
        · rename_i hsheet
          rw [hkeeps.settings] at hsheet
          have hpercent : first.Keeps { job with percent := 100.0 } :=
            hkeeps.trans ⟨rfl, rfl, rfl, rfl, rfl⟩
          refine follows_persist hpercent ⟨reports, ?_⟩
          rw [ExportRequest.course, if_neg hsheet, List.append_nil]

/-- A measurement that counts is announced with the title of its track. -/
theorem follows_announceMeasured (hkeeps : first.Keeps job) {index : Nat}
    (h : (EngineUse.measuring index []).Follows first.request job.phase told) :
    (job.announceMeasured index).point.Follows first.request (job.announceMeasured index).phase told := by
  obtain ⟨hphase, hnormalize, hindex, rfl⟩ := h
  have htitle : job.titleOf index = first.request.titles[index] := by
    have hmap : (job.tracks.map Track.title)[index]? = first.request.titles[index]? := by
      rw [hkeeps.titles]
      rfl
    rw [List.getElem?_map, List.getElem?_eq_getElem hindex] at hmap
    unfold titleOf
    rw [hmap]
    rfl
  have htold : measuringCourse (first.request.titles.take (index + 1)) =
      measuringCourse (first.request.titles.take index) ++ [Announcement.analyzed first.request.titles[index]] := by
    rw [List.take_add_one, List.getElem?_eq_getElem hindex, measuringCourse, List.map_append]
    rfl
  have hpercent : first.Keeps { job with percent := Progress.afterMeasuring (index + 1) job.tracks.length } :=
    hkeeps.trans ⟨rfl, rfl, rfl, rfl, rfl⟩
  have hnext := follows_measureFrom hpercent hnormalize hindex
  rw [htold, ← htitle] at hnext
  change Point.Follows first.request job.phase (.announce _ _) _
  rw [hphase]
  exact hnext

theorem Goes.follows_of_silent {isCancelled : Bool} {asked : Request} {answer : asked.Answer}
    (h : Goes isCancelled job asked answer job') (hsilent : asked.announced = []) (hkeeps : first.Keeps job)
    (hfollows : job.point.Follows first.request job.phase told) :
    job'.point.Follows first.request job'.phase told := by
  cases h with
  | announce => cases hsilent
  | halt hpoint => exact hfollows.interrupts hpoint
  | enter hpoint =>
      rw [hpoint] at hfollows
      exact follows_enter hkeeps hfollows
  | checkSource hpoint =>
      rw [hpoint] at hfollows
      rw [(hfollows : told = _)]
      exact follows_checkSources _ _
  | engineFound hpoint =>
      rw [hpoint] at hfollows
      cases (hfollows : told = _)
      rw [hkeeps.settings]
      change (if _ then _ else _ : Phase).Follows first.request _
      split
      · rename_i hnormalize
        exact ⟨hnormalize, rfl⟩
      · rename_i hnormalize
        change _ = first.request.earlyCourse
        rw [ExportRequest.earlyCourse, if_neg hnormalize]
  | engineMissing hpoint =>
      rw [hpoint] at hfollows
      rw [(hfollows : told = _)]
      exact ExportRequest.interrupts_validating
  | measured hpoint =>
      rw [hpoint] at hfollows
      exact follows_announceMeasured hkeeps hfollows
  | directoryRefused hpoint | startRefused hpoint | stopped hpoint =>
      rw [hpoint] at hfollows
      exact EngineUse.Follows.interrupts hfollows
  | heard hpoint =>
      rw [hpoint] at hfollows
      exact follows_hear _ _ _ hfollows
  | finishRun hpoint =>
      rw [hpoint] at hfollows
      exact follows_finishRun hkeeps _ _ hfollows
  | sheetWritten hpoint =>
      rw [hpoint] at hfollows
      exact follows_persist hkeeps hfollows
  | settingsStamped hpoint =>
      rw [hpoint] at hfollows
      exact follows_storeSettings _ _ hfollows
  | settingsPlaceRefused hpoint | settingsWritten hpoint =>
      rw [hpoint] at hfollows
      exact follows_complete hkeeps hfollows
  | released hpoint =>
      rw [hpoint] at hfollows
      exact ⟨told, rfl, hfollows⟩
  | measure hpoint | directoryMade hpoint | beforeStart hpoint | started hpoint | heardAll hpoint | stopHearing hpoint
  | awaited hpoint | stopAwaiting hpoint | settingsRead hpoint | settingsPlaceMade hpoint | removed hpoint
  | closed hpoint =>
      rw [hpoint] at hfollows
      exact hfollows

/-- Every step goes on with the course, and announces nothing but what comes next in it. -/
theorem Goes.follows {isCancelled : Bool} {asked : Request} {answer : asked.Answer}
    (h : Goes isCancelled job asked answer job') (hkeeps : first.Keeps job)
    (hfollows : job.point.Follows first.request job.phase told) :
    job'.point.Follows first.request job'.phase (told ++ asked.announced.map Event.announcement) := by
  by_cases hsilent : asked.announced = []
  · rw [hsilent, List.map_nil, List.append_nil]
    exact h.follows_of_silent hsilent hkeeps hfollows
  · cases h with
    | announce hpoint =>
        rw [hpoint] at hfollows
        exact hfollows
    | _ => exact (hsilent rfl).elim

theorem Reaches.follows {told : List Event} (h : first.Reaches told job) (hfirst : first.point = .enter .validating) :
    job.point.Follows first.request job.phase (told.map Event.announcement) := by
  induction h with
  | refl =>
      rw [hfirst]
      rfl
  | go hreaches hgoes ih =>
      rw [List.map_append]
      exact hgoes.follows hreaches.keeps ih

end Job

/-! ### What the course says -/

namespace ExportRequest

variable {request : ExportRequest} {told : List Announcement} {reports : Nat}

theorem mem_audioCourse {announcement : Announcement} (h : announcement ∈ request.audioCourse reports) :
    announcement.phase.isTerminal = false ∧ announcement.phase ≠ .cue ∧ announcement.output = none := by
  rw [audioCourse, List.mem_append, List.mem_cons] at h
  rcases h with hearly | rfl | hreport
  · unfold earlyCourse at hearly
    split at hearly
    · rw [measuringCourse, List.mem_cons, List.mem_cons, List.mem_map] at hearly
      rcases hearly with rfl | rfl | ⟨title, -, rfl⟩ <;> exact ⟨rfl, nofun, rfl⟩
    · rw [List.mem_singleton.mp hearly]
      exact ⟨rfl, nofun, rfl⟩
  · exact ⟨rfl, nofun, rfl⟩
  · rw [List.eq_of_mem_replicate hreport]
    exact ⟨rfl, nofun, rfl⟩

/-- Nothing in the course is a last event. -/
theorem mem_course {announcement : Announcement} (h : announcement ∈ request.course reports) :
    announcement.phase.isTerminal = false ∧ announcement.output = none := by
  rw [course, List.mem_append] at h
  rcases h with haudio | hcue
  · obtain ⟨hphase, -, houtput⟩ := mem_audioCourse haudio
    exact ⟨hphase, houtput⟩
  · split at hcue
    · rw [List.mem_singleton.mp hcue]
      exact ⟨rfl, rfl⟩
    · cases hcue

/-- Where the course may break off, the cue sheet has not come. -/
theorem Interrupts.phase_ne_cue (h : request.Interrupts told) {announcement : Announcement}
    (hmem : announcement ∈ told) : announcement.phase ≠ .cue := by
  obtain ⟨reports, hpre⟩ := h
  exact (mem_audioCourse (hpre.subset hmem)).2.1

variable (request) in
/-- All that has been told of a job: what came before its end, with some number of reports while
rendering, and how it has ended, if it has. -/
structure Told (told : List Announcement) (reports : Nat) (before : List Announcement) (ending : Option Outcome) :
    Prop where
  split : told = before ++ (ending.map Outcome.announcement).toList
  order : before <+: request.course reports
  /-- Only the end is told as an end, or with a file. -/
  unended : ∀ announcement ∈ before, announcement.phase.isTerminal = false ∧ announcement.output = none
  /-- A job completes behind the whole course. -/
  whole : ∀ output, ending = some (.completed output) → output = request.output ∧ before = request.course reports
  /-- Behind the cue sheet a job can only complete. -/
  sheet : ∀ announcement ∈ before, announcement.phase = .cue → ∀ outcome, ending = some outcome →
    outcome = .completed request.output

theorem told_of_prefix (h : told <+: request.course reports) : request.Told told reports told none where
  split := (List.append_nil _).symm
  order := h
  unended := fun _ hmem => mem_course (h.subset hmem)
  whole := nofun
  sheet := nofun

theorem Interrupts.going (h : request.Interrupts told) : ∃ reports, request.Told told reports told none := by
  obtain ⟨reports, hpre⟩ := h
  exact ⟨reports, told_of_prefix (hpre.trans (List.prefix_append _ _))⟩

theorem Allows.going {outcome : Outcome} (h : request.Allows told outcome) :
    ∃ reports, request.Told told reports told none := by
  cases outcome with
  | completed output =>
      obtain ⟨-, reports, rfl⟩ := h
      exact ⟨reports, told_of_prefix (List.prefix_refl _)⟩
  | failed | cancelled => exact Interrupts.going h

theorem Allows.ended {outcome : Outcome} (h : request.Allows told outcome) :
    ∃ reports, request.Told (told ++ [outcome.announcement]) reports told (some outcome) := by
  obtain ⟨reports, hpre, hwhole, hcut⟩ : ∃ reports, told <+: request.course reports ∧
      (∀ output, outcome = .completed output → output = request.output ∧ told = request.course reports) ∧
      (∀ announcement ∈ told, announcement.phase = .cue → outcome = .completed request.output) := by
    cases outcome with
    | completed output =>
        obtain ⟨rfl, reports, rfl⟩ := h
        refine ⟨reports, List.prefix_refl _, ?_, fun _ _ _ => rfl⟩
        rintro output ⟨⟩
        exact ⟨rfl, rfl⟩
    | failed | cancelled =>
        have hinterrupts : request.Interrupts told := h
        obtain ⟨reports, htold⟩ := hinterrupts.going
        exact ⟨reports, htold.order, nofun, fun _ hmem hcue => (hinterrupts.phase_ne_cue hmem hcue).elim⟩
  refine ⟨reports, rfl, hpre, fun _ hmem => mem_course (hpre.subset hmem), ?_, ?_⟩
  · intro output hending
    exact hwhole output (Option.some.inj hending)
  · intro announcement hmem hcue outcome' hending
    exact Option.some.inj hending ▸ hcut announcement hmem hcue

/-- Before the last announcement a job was going on. -/
theorem Told.init {announcement : Announcement} {before : List Announcement} {ending : Option Outcome}
    (h : request.Told (told ++ [announcement]) reports before ending) : request.Told told reports told none := by
  have hpre : told <+: before := by
    have hsplit := h.split
    cases ending with
    | none =>
        rw [Option.map_none, Option.toList_none, List.append_nil] at hsplit
        exact ⟨[announcement], hsplit⟩
    | some outcome =>
        rw [Option.map_some, Option.toList_some] at hsplit
        have hbefore : told = before := (List.append_inj' hsplit rfl).1
        exact hbefore ▸ List.prefix_refl _
  exact told_of_prefix (hpre.trans h.order)

end ExportRequest

/-- Wherever a job is, what has been told is the course so far, with the end when it has come. -/
theorem Point.Follows.told_so_far {request : ExportRequest} {now : Phase} {point : Point} {told : List Announcement}
    (h : point.Follows request now told) : ∃ reports before ending, request.Told told reports before ending := by
  have hgoing : ∀ {told}, (∃ reports, request.Told told reports told none) →
      ∃ reports before ending, request.Told told reports before ending := by
    rintro told ⟨reports, htold⟩
    exact ⟨reports, told, none, htold⟩
  induction point generalizing told with
  | enter phase => exact hgoing (Phase.Follows.interrupts h).going
  | announce event next ih =>
      -- the announcement is still to come, so what is told is the course without it
      obtain ⟨reports, before, ending, htold⟩ := ih h
      exact hgoing ⟨reports, htold.init⟩
  | checkSource | checkEngine =>
      cases (h : told = _)
      exact hgoing ExportRequest.interrupts_validating.going
  | beforeMeasuring | afterMeasuring | makeDirectory | engine => exact hgoing (EngineUse.Follows.interrupts h).going
  | writeSheet | readSettings | stampSettings | makeSettingsDirectory | writeSettings =>
      obtain ⟨reports, rfl⟩ := h
      exact hgoing ⟨reports, ExportRequest.told_of_prefix (List.prefix_refl _)⟩
  | removeOutput | release => exact hgoing (ExportRequest.Allows.going h)
  | close | ended =>
      obtain ⟨before, rfl, hallows⟩ := h
      obtain ⟨reports, htold⟩ := hallows.ended
      exact ⟨reports, before, _, htold⟩

namespace Service

/-- **The course of a job.** Whatever else the service is asked for, and whatever its world does,
what has been told of a job is a beginning of its course, with no more than one end behind it, which
agrees with how the job has ended. -/
theorem told_of_moves? {initial service started final : Service} {before after : List Move}
    {request : ExportRequest} {id : Nat} (hfresh : initial.IsFresh) (hbefore : initial.moves? before = some service)
    (hstart : service.start request = .ok (id, started)) (hafter : started.moves? after = some final) :
    ∃ reports told ending, request.Told ((final.eventsOf id).map Event.announcement) reports told ending ∧
      ∀ outcome, final.outcome? id = some outcome → ending = some outcome := by
  obtain ⟨task, htask', hreaches⟩ := reaches_of_start hfresh hbefore hstart hafter
  have hfollows := hreaches.follows rfl
  cases hended : final.outcome? id with
  | none =>
      obtain ⟨reports, before, ending, hsofar⟩ := hfollows.told_so_far
      refine ⟨reports, before, ending, hsofar, ?_⟩
      rintro outcome ⟨⟩
  | some outcome =>
      rw [outcome?_eq_some hended htask'] at hfollows
      obtain ⟨before, hsplit, hallows⟩ := hfollows
      obtain ⟨reports, hsofar⟩ := hallows.ended
      rw [← hsplit] at hsofar
      refine ⟨reports, before, some outcome, hsofar, ?_⟩
      rintro outcome' ⟨⟩
      rfl

/-- A mix of one track, to be rendered to some path. -/
def interlude (output : Path) : ExportRequest where
  mix :=
    { root := ⟨"set"⟩
      file := ⟨"set/mix.json"⟩
      project :=
        { version := "1.0"
          name := "Interlude"
          tracks := [{ position := 0, title := "First", source := ⟨"first.wav"⟩, duration := 120.0 }] } }
  output := output
  settings := {}

/-- A service with an engine that renders some audio. -/
def equippedToRender : Service where
  engine := { binary := "./ffmpeg" }
  files := { entries :=
    [(["ffmpeg"], .file "" true), (["set"], .directory), (["set", "first.wav"], .file "RIFF" false)] }
  scripts := [{ actions := [.write "AUDIO"] }]

/-- Where the mix is rendered, up to some steps behind the engine. -/
def rendered (output : Path) (count : Nat) : List Move :=
  [.start (interlude output)] ++ List.replicate 8 (.job 0) ++ [.engine 0] ++ List.replicate count (.job 0)

theorem isFresh_equippedToRender : equippedToRender.IsFresh := ⟨rfl, rfl, rfl⟩

theorem told_of_moves?_equippedToRender :
    ∃ started final, equippedToRender.IsFresh ∧ equippedToRender.moves? [] = some equippedToRender ∧
      equippedToRender.start (interlude ⟨"night.flac"⟩) = .ok (0, started) ∧
      started.moves? (List.replicate 8 (.job 0) ++ [.engine 0] ++ List.replicate 8 (.job 0)) = some final ∧
      (final.eventsOf 0).map Event.phase = [.validating, .rendering, .cue, .complete] ∧
      final.outcome? 0 = some (.completed ⟨"night.flac"⟩) ∧
      ∃ reports told, (interlude ⟨"night.flac"⟩).Told ((final.eventsOf 0).map Event.announcement) reports told
        (some (.completed ⟨"night.flac"⟩)) := by
  obtain ⟨started, hstart⟩ : ∃ started, equippedToRender.start (interlude ⟨"night.flac"⟩) = .ok (0, started) :=
    ⟨_, rfl⟩
  obtain ⟨final, hrun, hphases, hended⟩ :
      ∃ final ∈ started.moves? (List.replicate 8 (.job 0) ++ [.engine 0] ++ List.replicate 8 (.job 0)),
        (final.eventsOf 0).map Event.phase = [.validating, .rendering, .cue, .complete] ∧
          final.outcome? 0 = some (.completed ⟨"night.flac"⟩) := by
    cases hstart
    decide +kernel
  obtain ⟨reports, told, ending, htold, hending⟩ :=
    @told_of_moves? equippedToRender equippedToRender started final [] _ _ 0 isFresh_equippedToRender rfl hstart hrun
  rw [hending _ hended] at htold
  exact ⟨started, final, isFresh_equippedToRender, rfl, hstart, hrun, hphases, hended, reports, told, htold⟩

end Service

end Segue
