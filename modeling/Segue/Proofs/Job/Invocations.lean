import Segue.Proofs.Job.Measured
import Segue.Proofs.Job.Validation

/-!
The runs of the engine for one job. Main statement: they are a beginning of a fixed sequence, in
which each track is measured in turn and the mix is rendered last; a run is followed by another one
only when it has succeeded and what it measured can be read, and the mix is rendered by just these
measurements.
-/

namespace Segue

/-- What a run of the engine measures, when it succeeds and its output ends in a measurement. -/
def EngineScript.measured? (script : EngineScript) : Option (Measurement Float) :=
  if script.status.isSuccess then (Measurement.ofOutput script.output).toOption else none

theorem EngineScript.measured?_eq_some {script : EngineScript} {measurement : Measurement Float} :
    script.measured? = some measurement ↔
      script.status.isSuccess = true ∧ Measurement.ofOutput script.output = .ok measurement := by
  unfold measured?
  cases script.status.isSuccess <;> cases Measurement.ofOutput script.output <;> simp [Except.toOption]

namespace ExportRequest

variable (request : ExportRequest) (runs : List (List String × EngineScript)) (found : List (Measurement Float))

/-- Runs of the engine that have measured the first tracks. -/
structure Measures : Prop where
  order : runs.map Prod.fst = request.measuringRuns.take found.length
  reports : runs.map (fun run => run.2.measured?) = found.map some

/-- The arguments of the run that renders. -/
def Plans (arguments : List String) : Prop :=
  found.length = request.measuringRuns.length ∧
    ∃ plan, (request.measured found).mix.plan request.settings request.output = .ok plan ∧ arguments = plan.arguments

/-- Runs of the engine of which all but the last have measured a track each. -/
def Sequence : Prop :=
  request.Measures runs found ∨
    ∃ before last, runs = before ++ [last] ∧ request.Measures before found ∧
      (request.measuringRuns[found.length]? = some last.1 ∨ request.Plans found last.1)

/-- The runs of the engine for one job, with what they have measured and with the arguments of the
one that renders. -/
structure Runs (render : List String) : Prop where
  order : runs.map Prod.fst <+: request.measuringRuns ++ [render]
  reports : (runs.take found.length).map (fun run => run.2.measured?) = found.map some
  /-- What a run measures is known before the next one starts. -/
  successive : runs.length ≤ found.length + 1
  rendered : request.measuringRuns.length < runs.length →
    found.length = request.measuringRuns.length ∧ ∃ plan, request.Renders found render plan

variable {request runs found} {before : List (List String × EngineScript)} {last : List String × EngineScript}

theorem Measures.nil : request.Measures [] [] := ⟨rfl, rfl⟩

theorem Measures.length_eq (h : request.Measures runs found) : runs.length = found.length := by
  simpa using congrArg List.length h.reports

theorem Measures.length_le (h : request.Measures runs found) : found.length ≤ request.measuringRuns.length := by
  have hlength := congrArg List.length h.order
  rw [List.length_map, List.length_take, h.length_eq] at hlength
  omega

/-- Nothing has been measured of a track unless tracks are to be normalized. -/
theorem Measures.normalize {count : Nat} (h : request.Measures runs found) (hlength : found.length = count + 1) :
    request.settings.normalize = true := by
  have hbound := h.length_le
  rw [hlength] at hbound
  exact normalize_of_lt hbound

theorem Measures.concat {measurement : Measurement Float} (h : request.Measures before found)
    (hnext : request.measuringRuns[found.length]? = some last.1) (hmeasured : last.2.measured? = some measurement) :
    request.Measures (before ++ [last]) (found ++ [measurement]) where
  order := by
    rw [List.map_append, h.order, List.length_append, List.length_singleton, List.take_add_one, hnext]
    rfl
  reports := by
    rw [List.map_append, h.reports, List.map_append, List.map_singleton, hmeasured]
    rfl

theorem Measures.toRuns (h : request.Measures runs found) : request.Runs runs found [] where
  order := by
    rw [h.order]
    exact (List.take_prefix _ _).trans (List.prefix_append _ _)
  reports := by rw [← h.length_eq, List.take_length, h.reports]
  successive := Nat.le_succ_of_le (Nat.le_of_eq h.length_eq)
  rendered := by
    intro hlt
    rw [h.length_eq] at hlt
    exact (Nat.not_lt.mpr h.length_le hlt).elim

theorem Measures.toRuns_concat {render : List String} (h : request.Measures before found)
    (horder : request.measuringRuns.take found.length ++ [last.1] <+: request.measuringRuns ++ [render])
    (hrendered : request.measuringRuns.length < found.length + 1 →
      found.length = request.measuringRuns.length ∧ ∃ plan, request.Renders found render plan) :
    request.Runs (before ++ [last]) found render where
  order := by
    rw [List.map_append, h.order]
    exact horder
  reports := by rw [← h.length_eq, List.take_left, h.reports]
  successive := by rw [List.length_append, h.length_eq]; exact Nat.le_refl _
  rendered := by
    rw [List.length_append, h.length_eq]
    exact hrendered

theorem Sequence.toRuns (h : request.Sequence runs found) : ∃ render, request.Runs runs found render := by
  rcases h with hmeasures | ⟨before, last, rfl, hmeasures, hnext | ⟨hall, plan, hplan, hrender⟩⟩
  · exact ⟨[], hmeasures.toRuns⟩
  · have hlt : found.length < request.measuringRuns.length := (List.getElem?_eq_some_iff.mp hnext).1
    refine ⟨[], hmeasures.toRuns_concat ?_ fun hle => (Nat.not_lt.mpr hlt hle).elim⟩
    have htake : request.measuringRuns.take (found.length + 1) =
        request.measuringRuns.take found.length ++ [last.1] := by
      rw [List.take_add_one, hnext]
      rfl
    rw [← htake]
    exact (List.take_prefix _ _).trans (List.prefix_append _ _)
  · refine ⟨last.1, hmeasures.toRuns_concat ?_ fun _ => ⟨hall, plan, hrender ▸ renders_of_plan hplan hall⟩⟩
    exact ⟨[], by rw [hall, List.take_length, List.append_nil]⟩

end ExportRequest

/-- What has been found when a phase is entered. -/
def Phase.Opens (request : ExportRequest) (found : List (Measurement Float)) : Phase → Prop
  | .validating => found = []
  | .analyzing => request.settings.normalize = true ∧ found = []
  | .rendering => found.length = request.measuringRuns.length
  | _ => False

/-- Once the engine is known to be there, the tracks are measured if they are to be normalized. -/
theorem ExportRequest.opens_nil (request : ExportRequest) :
    (if request.settings.normalize then Phase.analyzing else .rendering).Opens request [] := by
  split
  · rename_i hnormalize
    exact ⟨hnormalize, rfl⟩
  · rename_i hplain
    rw [Bool.not_eq_true] at hplain
    exact (congrArg List.length (measuringRuns_eq_nil hplain)).symm

/-- What a run of the engine is for is what comes next. -/
def EngineUse.Suits (request : ExportRequest) (found : List (Measurement Float)) : EngineUse → Prop
  | .measuring index _ => index = found.length ∧ index < request.measuringRuns.length
  | .encoding arguments _ _ => request.Plans found arguments

/-- Nothing has been heard yet of a run that measures. -/
def EngineUse.IsUnheard : EngineUse → Prop
  | .measuring _ heard => heard = []
  | .encoding .. => True

/-- While a track is measured, all that the engine says is heard, and how it ends. -/
def EngineUse.Hears (script : EngineScript) (prospect : Option (List Char × ExitStatus)) :
    EngineUse → EngineStage → Prop
  | .measuring _ heard, .hear => ∃ rest, prospect = some (rest, script.status) ∧ heard ++ rest = script.output
  | .measuring _ heard, .await => prospect = some ([], script.status) ∧ heard = script.output
  | .measuring _ heard, .checkAfter status => heard = script.output ∧ status = script.status
  | _, _ => True

namespace EngineUse.Hears

variable {use : EngineUse} {script : EngineScript} {run : Option EngineRun} {scripts : List EngineScript}
  {prospect : Option (List Char × ExitStatus)}

/-- Of an engine that has just been started, all is still to be heard. -/
theorem of_isUnheard (h : use.IsUnheard) (hprospect : prospect = some (script.output, script.status)) :
    use.Hears script prospect .hear := by
  cases use with
  | measuring index heard =>
      cases (h : heard = [])
      exact ⟨script.output, hprospect, rfl⟩
  | encoding => trivial

/-- A piece that is heard is the first part of what was still to be heard. -/
theorem piece {index : Nat} {heard : List Char} {bytes : List UInt8} {elapsed : Float}
    (h : (EngineUse.measuring index heard).Hears script (run.map EngineRun.prospect) .hear)
    (hheeds : Request.hearEngine.Heeds run (.piece bytes elapsed)) :
    (EngineUse.measuring index (heard ++ Text.decodeLossy bytes)).Hears script
      ((Request.hearEngine.runAfter scripts run (.piece bytes elapsed)).map EngineRun.prospect) .hear := by
  obtain ⟨rest, hprospect, hsplit⟩ := h
  obtain ⟨engine, unheard, rfl, hunheard⟩ := hheeds
  rw [Option.map_some, EngineRun.prospect_of_unheard hunheard] at hprospect
  obtain ⟨rfl, hstatus⟩ := Prod.mk.inj (Option.some.inj hprospect)
  refine ⟨_, ?_, (List.append_assoc _ _ _).trans hsplit⟩
  rw [Request.runAfter, Option.map_some, Option.map_some, hunheard, ← hstatus]
  rfl

theorem await (h : use.Hears script (run.map EngineRun.prospect) .hear)
    (hheeds : Request.hearEngine.Heeds run .silence) : use.Hears script (run.map EngineRun.prospect) .await := by
  cases use with
  | measuring index heard =>
      obtain ⟨rest, hprospect, hsplit⟩ := h
      obtain ⟨engine, rfl, hengine⟩ := Option.map_eq_some_iff.mp hprospect
      obtain ⟨hunheard, hended⟩ := hheeds engine rfl
      rw [EngineRun.prospect_of_hasEnded hunheard hended] at hengine
      obtain ⟨rfl, hstatus⟩ := Prod.mk.inj hengine
      rw [List.append_nil] at hsplit
      exact ⟨hprospect, hsplit⟩
  | encoding => trivial

theorem checkAfter {status : ExitStatus} (h : use.Hears script (run.map EngineRun.prospect) .await)
    (hheeds : Request.awaitEngine.Heeds run (some status)) : use.Hears script prospect (.checkAfter status) := by
  cases use with
  | measuring index heard =>
      obtain ⟨hprospect, hheard⟩ := h
      obtain ⟨engine, rfl, hengine⟩ := Option.map_eq_some_iff.mp hprospect
      obtain ⟨-, hstatus⟩ := hheeds engine rfl
      exact ⟨hheard, hstatus.trans (Prod.mk.inj hengine).2⟩
  | encoding => trivial

theorem stop : use.Hears script prospect .stop := by
  cases use <;> trivial

end EngineUse.Hears

/-- A run of the engine has been started as the last one. -/
structure EngineUse.Started (request : ExportRequest) (runs : List (List String × EngineScript))
    (found : List (Measurement Float)) (prospect : Option (List Char × ExitStatus)) (use : EngineUse)
    (stage : EngineStage) (before : List (List String × EngineScript)) (last : List String × EngineScript) : Prop where
  runs : runs = before ++ [last]
  measures : request.Measures before found
  suits : use.Suits request found
  next : request.measuringRuns[found.length]? = some last.1 ∨ request.Plans found last.1
  hears : use.Hears last.2 prospect stage

namespace EngineUse.Started

variable {request : ExportRequest} {runs before : List (List String × EngineScript)} {found : List (Measurement Float)}
  {prospect : Option (List Char × ExitStatus)} {use : EngineUse} {stage : EngineStage}
  {last : List String × EngineScript}

theorem sequence (h : use.Started request runs found prospect stage before last) : request.Sequence runs found :=
  .inr ⟨before, last, h.runs, h.measures, h.next⟩

/-- A run that measures is the one of the next track. -/
theorem due {index : Nat} {heard : List Char}
    (h : (EngineUse.measuring index heard).Started request runs found prospect stage before last) :
    request.measuringRuns[found.length]? = some last.1 := by
  obtain ⟨rfl, hindex⟩ := h.suits
  rcases h.next with hnext | ⟨hall, -⟩
  · exact hnext
  · exact (Nat.ne_of_lt hindex hall).elim

/-- A run that has succeeded and whose output can be read has measured one more track. -/
theorem measured {index : Nat} {heard : List Char} {status : ExitStatus} {measurement : Measurement Float}
    (h : (EngineUse.measuring index heard).Started request runs found prospect (.checkAfter status) before last)
    (hsuccess : status.isSuccess = true) (hmeasured : Measurement.ofOutput heard = .ok measurement) :
    request.Measures runs (found ++ [measurement]) := by
  obtain ⟨rfl, rfl⟩ := h.hears
  rw [h.runs]
  exact h.measures.concat h.due (EngineScript.measured?_eq_some.mpr ⟨hsuccess, hmeasured⟩)

end EngineUse.Started

/-- The runs of the engine for a job that is at a point, with what can still be heard of the last
one. -/
def Point.Pursues (request : ExportRequest) (runs : List (List String × EngineScript))
    (found : List (Measurement Float)) (prospect : Option (List Char × ExitStatus)) : Point → Prop
  | .announce _ next => next.Pursues request runs found prospect
  | .enter phase => request.Measures runs found ∧ phase.Opens request found
  | .checkSource .. | .checkEngine => request.Measures runs found ∧ found = []
  | .beforeMeasuring index => request.Measures runs found ∧ (EngineUse.measuring index []).Suits request found
  | .afterMeasuring index => request.Measures runs found ∧ found.length = index + 1
  | .makeDirectory _ use => request.Measures runs found ∧ use.Suits request found ∧ use.IsUnheard
  | .engine use _ stage =>
    if stage.isBefore then request.Measures runs found ∧ use.Suits request found ∧ use.IsUnheard
    else ∃ before last, use.Started request runs found prospect stage before last
  | _ => request.Sequence runs found

theorem Point.Pursues.sequence {request : ExportRequest} {runs : List (List String × EngineScript)}
    {found : List (Measurement Float)} {prospect : Option (List Char × ExitStatus)} {point : Point}
    (h : point.Pursues request runs found prospect) : request.Sequence runs found := by
  induction point with
  | announce event next ih => exact ih h
  | enter | checkSource | checkEngine | beforeMeasuring | afterMeasuring | makeDirectory => exact .inl h.1
  | engine use tail stage =>
      unfold Pursues at h
      split at h
      · exact .inl h.1
      · obtain ⟨before, last, hstarted⟩ := h
        exact hstarted.sequence
  | _ => exact h

namespace Job

variable {request : ExportRequest} {job job' : Job} {runs : List (List String × EngineScript)}
  {found : List (Measurement Float)} {run : Option EngineRun} {scripts : List EngineScript}
  {prospect : Option (List Char × ExitStatus)} {isCancelled : Bool} {asked : Request} {answer : asked.Answer}

theorem length_tracks (hrequest : job.request = request.measured found) :
    job.tracks.length = request.mix.project.tracks.length := by
  unfold tracks
  rw [hrequest]
  exact ExportRequest.length_measuredTracks

/-- The arguments of a run that is due are the next ones, since what has been measured so far does
not change where the sources are. -/
theorem argumentsOf_of_suits (hrequest : job.request = request.measured found) {use : EngineUse}
    (h : use.Suits request found) :
    request.measuringRuns[found.length]? = some (job.argumentsOf use) ∨ request.Plans found (job.argumentsOf use) := by
  cases use with
  | encoding arguments duration reached => exact .inr h
  | measuring index heard =>
      obtain ⟨rfl, hindex⟩ := h
      have hnormalize := ExportRequest.normalize_of_lt hindex
      have hbound : found.length < request.mix.project.tracks.length := by
        rw [← ExportRequest.length_measuringRuns hnormalize]
        exact hindex
      have htrack : job.tracks[found.length]? = (request.measuredTracks found)[found.length]? := by
        unfold tracks
        rw [hrequest]
        rfl
      refine .inl ?_
      rw [ExportRequest.getElem?_measuredTracks] at htrack
      rw [ExportRequest.getElem?_measuringRuns hnormalize, argumentsOf, htrack, List.getElem?_eq_getElem hbound,
        hrequest]
      rfl

theorem pursues_checkSources (hmeasures : request.Measures runs []) (tracks : List (Track Float))
    (missing : List String) : (job.checkSources tracks missing).point.Pursues request runs [] prospect := by
  unfold checkSources
  split
  · exact ⟨hmeasures, rfl⟩
  · split
    · exact ⟨hmeasures, rfl⟩
    · exact .inl hmeasures

/-- When some tracks have been measured, the next one is, or all have been. -/
theorem pursues_measureFrom (hrequest : job.request = request.measured found) (hmeasures : request.Measures runs found)
    (hnormalize : request.settings.normalize = true) :
    (job.measureFrom found.length).point.Pursues request runs found prospect := by
  have hlength := ExportRequest.length_measuringRuns hnormalize
  unfold measureFrom
  rw [length_tracks hrequest, ← hlength]
  split
  · rename_i hlt
    exact ⟨hmeasures, rfl, hlt⟩
  · rename_i hge
    exact ⟨hmeasures, Nat.le_antisymm hmeasures.length_le (Nat.le_of_not_lt hge)⟩

theorem pursues_announceMeasured (hrequest : job.request = request.measured found)
    (hmeasures : request.Measures runs found) {index : Nat} (hlength : found.length = index + 1) :
    (job.announceMeasured index).point.Pursues request runs found prospect := by
  have hrequest' : ({ job with percent := Progress.afterMeasuring (index + 1) job.tracks.length } : Job).request =
    request.measured found := hrequest
  have hnext : Point.Pursues request runs found prospect _ :=
    pursues_measureFrom hrequest' hmeasures (hmeasures.normalize hlength)
  rw [hlength] at hnext
  exact hnext

theorem pursues_prepare (hrequest : job.request = request.measured found) (hmeasures : request.Measures runs found)
    (hall : found.length = request.measuringRuns.length) :
    job.prepare.point.Pursues request runs found prospect := by
  unfold prepare
  rw [hrequest]
  dsimp only
  split
  · exact .inl hmeasures
  · rename_i plan hplan
    have hplans : request.Plans found plan.arguments := ⟨hall, plan, hplan, rfl⟩
    split
    · split
      · exact ⟨hmeasures, hplans, trivial⟩
      · exact ⟨hmeasures, hplans, trivial⟩
    · exact ⟨hmeasures, hplans, trivial⟩

theorem pursues_enter (hrequest : job.request = request.measured found) (hmeasures : request.Measures runs found)
    {phase : Phase} (h : phase.Opens request found) :
    (job.enter phase).point.Pursues request runs found prospect := by
  cases phase with
  | validating =>
      cases (h : found = [])
      exact pursues_checkSources hmeasures _ _
  | analyzing =>
      obtain ⟨hnormalize, rfl⟩ := h
      exact pursues_measureFrom hrequest hmeasures hnormalize
  | rendering =>
      have hrequest' : ({ job with phase := .rendering, percent := Progress.measuringShare } : Job).request =
        request.measured found := hrequest
      exact pursues_prepare hrequest' hmeasures h
  | _ => exact h.elim

theorem pursues_persist (h : request.Sequence runs found) : job.persist.point.Pursues request runs found prospect := by
  unfold persist
  split <;> exact h

theorem pursues_storeSettings (h : request.Sequence runs found) (file : Path) (text : String) :
    (job.storeSettings file text).point.Pursues request runs found prospect := by
  unfold storeSettings
  split <;> exact h

theorem pursues_hear {use : EngineUse} {bytes : List UInt8} {elapsed : Float}
    {before : List (List String × EngineScript)} {last : List String × EngineScript}
    (h : use.Started request runs found (run.map EngineRun.prospect) .hear before last) (tail : DiagnosticTail)
    (hheeds : Request.hearEngine.Heeds run (.piece bytes elapsed)) :
    (job.hear use tail (Text.decodeLossy bytes) elapsed).point.Pursues request runs found
      ((Request.hearEngine.runAfter scripts run (.piece bytes elapsed)).map EngineRun.prospect) := by
  unfold hear
  cases use with
  | measuring index heard =>
      exact ⟨before, last, { h with hears := h.hears.piece hheeds }⟩
  | encoding arguments duration reached =>
      have hgoing : ∃ before last, (EngineUse.encoding arguments duration reached).Started request runs found
          ((Request.hearEngine.runAfter scripts run (.piece bytes elapsed)).map EngineRun.prospect) .hear before last :=
        ⟨before, last, { h with hears := trivial }⟩
      dsimp only
      split
      · exact hgoing
      · split
        · exact hgoing
        · exact ⟨before, last, { h with hears := trivial }⟩

theorem request_recordMeasurement (hrequest : job.request = request.measured found) (measurement : Measurement Float) :
    (job.recordMeasurement found.length measurement).request = request.measured (found ++ [measurement]) := by
  have htracks := @ExportRequest.measuredTracks_concat request found measurement
  rw [recordMeasurement, hrequest]
  unfold ExportRequest.measured
  rw [← htracks]

/-- A run that has measured its track adds its measurement, or the job fails. -/
theorem pursues_finishRun (hrequest : job.request = request.measured found) {use : EngineUse} {status : ExitStatus}
    {before : List (List String × EngineScript)} {last : List String × EngineScript}
    (h : use.Started request runs found prospect (.checkAfter status) before last) (tail : DiagnosticTail) :
    ∃ found', (job.finishRun use tail status).request = request.measured found' ∧
      (job.finishRun use tail status).point.Pursues request runs found' prospect := by
  unfold finishRun
  cases use with
  | encoding arguments duration reached =>
      refine ⟨found, ?_⟩
      dsimp only
      split
      · exact ⟨hrequest, h.sequence⟩
      · split
        · exact ⟨hrequest, h.sequence⟩
        · exact ⟨(request_persist _).trans hrequest, pursues_persist h.sequence⟩
  | measuring index heard =>
      obtain ⟨rfl, -⟩ := h.suits
      dsimp only
      split
      · exact ⟨found, hrequest, h.sequence⟩
      · rename_i hsuccess
        rw [Bool.not_eq_true, Bool.not_eq_false'] at hsuccess
        split
        · exact ⟨found, hrequest, h.sequence⟩
        · rename_i measurement hmeasured
          exact ⟨found ++ [measurement], request_recordMeasurement hrequest measurement,
            h.measured hsuccess hmeasured, List.length_append⟩

theorem request_enter (phase : Phase) : (job.enter phase).request = job.request := by
  cases phase <;> rfl

theorem request_storeSettings (file : Path) (text : String) : (job.storeSettings file text).request = job.request := by
  unfold storeSettings
  split <;> rfl

theorem request_hear (use : EngineUse) (tail : DiagnosticTail) (piece : List Char) (elapsed : Float) :
    (job.hear use tail piece elapsed).request = job.request := by
  obtain ⟨_, _, -, heq | ⟨_, heq⟩⟩ := hear_cases job use tail piece elapsed <;> rw [heq] <;> rfl

/-- The runs of the engine for a job that has an engine, or none, are a sequence for a request. -/
def Pursues (request : ExportRequest) (runs : List (List String × EngineScript)) (run : Option EngineRun) (job : Job) :
    Prop :=
  ∃ found, job.request = request.measured found ∧ job.point.Pursues request runs found (run.map EngineRun.prospect)

theorem Goes.pursues_of_unstarted (h : Goes isCancelled job asked answer job') (hpursues : job.Pursues request runs run)
    (hheeds : asked.Heeds run answer) (hnone : asked.started answer = []) :
    job'.Pursues request runs (asked.runAfter scripts run answer) := by
  obtain ⟨found, hrequest, hpoint⟩ := hpursues
  have hsequence := hpoint.sequence
  cases h with
  | halt => exact ⟨found, hrequest, hsequence⟩
  | enter heq =>
      rw [heq] at hpoint
      exact ⟨found, (request_enter _).trans hrequest, pursues_enter hrequest hpoint.1 hpoint.2⟩
  | announce heq =>
      rw [heq] at hpoint
      exact ⟨found, hrequest, hpoint⟩
  | checkSource heq =>
      rw [heq] at hpoint
      obtain ⟨hmeasures, rfl⟩ := hpoint
      exact ⟨[], (request_checkSources _ _).trans hrequest, pursues_checkSources hmeasures _ _⟩
  | engineFound heq =>
      rw [heq] at hpoint
      obtain ⟨hmeasures, rfl⟩ := hpoint
      refine ⟨[], hrequest, hmeasures, ?_⟩
      rw [hrequest]
      exact request.opens_nil
  | measure heq =>
      rw [heq] at hpoint
      exact ⟨found, hrequest, hpoint.1, hpoint.2, rfl⟩
  | measured heq =>
      rw [heq] at hpoint
      exact ⟨found, hrequest, pursues_announceMeasured hrequest hpoint.1 hpoint.2⟩
  | directoryMade heq | beforeStart heq =>
      rw [heq] at hpoint
      exact ⟨found, hrequest, hpoint⟩
  | started => cases hnone
  | heard heq =>
      rw [heq] at hpoint
      obtain ⟨before, last, hstarted⟩ := hpoint
      exact ⟨found, (request_hear _ _ _ _).trans hrequest, pursues_hear hstarted _ hheeds⟩
  | @heardAll use tail heq =>
      rw [heq] at hpoint
      obtain ⟨before, last, hstarted⟩ := hpoint
      exact ⟨found, hrequest, before, last, { hstarted with hears := hstarted.hears.await hheeds }⟩
  | stopHearing heq | stopAwaiting heq =>
      rw [heq] at hpoint
      obtain ⟨before, last, hstarted⟩ := hpoint
      exact ⟨found, hrequest, before, last, { hstarted with hears := .stop }⟩
  | @awaited use tail heq hcancelled status =>
      rw [heq] at hpoint
      obtain ⟨before, last, hstarted⟩ := hpoint
      exact ⟨found, hrequest, before, last, { hstarted with hears := hstarted.hears.checkAfter hheeds }⟩
  | finishRun heq =>
      rw [heq] at hpoint
      obtain ⟨before, last, hstarted⟩ := hpoint
      exact pursues_finishRun hrequest hstarted _
  | sheetWritten => exact ⟨found, (request_persist job).trans hrequest, pursues_persist hsequence⟩
  | settingsStamped =>
      exact ⟨found, (request_storeSettings _ _).trans hrequest, pursues_storeSettings hsequence _ _⟩
  | _ => exact ⟨found, hrequest, hsequence⟩

/-- A run that a job starts is the one that is due. -/
theorem Goes.pursues_of_started (h : Goes isCancelled job asked answer job') (hpursues : job.Pursues request runs run)
    {arguments : List String} (hstarted : asked.started answer = [arguments]) :
    job'.Pursues request (runs ++ [(arguments, scripts.head?.getD {})]) (asked.runAfter scripts run answer) := by
  obtain ⟨found, hrequest, hpoint⟩ := hpursues
  cases h with
  | @started use tail heq =>
      cases hstarted
      rw [heq] at hpoint
      obtain ⟨hmeasures, hsuits, hheard⟩ := hpoint
      exact ⟨found, hrequest, runs, _, rfl, hmeasures, hsuits, argumentsOf_of_suits hrequest hsuits,
        .of_isUnheard hheard rfl⟩
  | _ => cases hstarted

end Job

namespace Service

variable {initial service started final : Service} {before moves : List Move} {id : Nat} {request : ExportRequest}
  {task : Task} {move : Move}

theorem Drives.pursues {runs more : List (List String × EngineScript)} {task' : Task}
    (h : service.Drives move id task more task') (hpursues : task.job.Pursues request runs task.run) :
    task'.job.Pursues request (runs ++ more) task'.run := by
  cases h with
  | rest hjob hengine =>
      obtain ⟨found, hrequest, hpoint⟩ := hpursues
      rw [List.append_nil]
      exact ⟨found, hjob ▸ hrequest, by rw [hjob, hengine]; exact hpoint⟩
  | @go _ asked answer hmove hgoes hheeds hrun =>
      rw [hrun]
      rcases asked.started_cases answer with hnone | ⟨arguments, hstarted⟩
      · rw [hnone, List.map_nil, List.append_nil]
        exact hgoes.pursues_of_unstarted hpursues hheeds hnone
      · rw [hstarted, List.map_singleton]
        exact hgoes.pursues_of_started hpursues hstarted

/-- At every moment the runs of the engine for a job are those of its sequence so far. -/
theorem pursues_of_moves? (hunused : initial.IsUnused) (hbefore : initial.moves? before = some service)
    (hstart : service.start request = .ok (id, started)) (hafter : started.moves? moves = some final) :
    ∃ task, final.tasks[id]? = some task ∧
      task.job.Pursues request (final.runsOf initial.scripts id) task.run := by
  obtain ⟨-, -, hmove, -, -, htask⟩ := start_eq_ok hstart
  have hserved := (moves_of_move? hmove).isServed (isServed_of_moves? hunused hbefore)
  refine (invariant_of_moves? (p := fun between => between.IsServed initial.scripts ∧ ∃ task,
    between.tasks[id]? = some task ∧ task.job.Pursues request (between.runsOf initial.scripts id) task.run) ?_
    ⟨hserved, _, htask, ?_⟩ hafter).2
  · rintro between move after ⟨hserved, task, htask, hpursues⟩ hmoves
    obtain ⟨more, task', htask', hdrives, hruns⟩ := hmoves.drives hserved htask
    refine ⟨hmoves.isServed hserved, task', htask', ?_⟩
    rw [hruns]
    exact hdrives.pursues hpursues
  · rw [runsOf_of_start hunused hbefore hstart]
    exact ⟨[], ExportRequest.measured_nil.symm, .nil, rfl⟩

/-- **The runs of the engine.** Whatever the engine does, and whenever the job is asked to stop: the
runs for a job are a beginning of the measuring of its tracks in their order with the rendering
behind it, each but the last has succeeded and measured its track, and when the mix is rendered each
chain normalizes by what was measured of its track, or none does. When sources are missing the
engine is not run, and the job fails with the titles of their tracks unless it was stopped
before. -/
theorem invocations_of_moves? (hunused : initial.IsUnused) (hbefore : initial.moves? before = some service)
    (hstart : service.start request = .ok (id, started)) (hafter : started.moves? moves = some final) :
    (∃ found render, request.Runs (final.runsOf initial.scripts id) found render) ∧
      (service.files.missingSources request.mix ≠ [] →
        Misses initial.scripts (service.files.missingSources request.mix) (request.mix.project.tracks.length + 8)
          started id moves final) := by
  refine ⟨?_, fun hsome => misses_of_moves? hunused hbefore hstart hsome hafter⟩
  obtain ⟨task, -, found, -, hpoint⟩ := pursues_of_moves? hunused hbefore hstart hafter
  exact ⟨found, hpoint.sequence.toRuns⟩

def overture : ExportRequest where
  mix := {
    root := ⟨"set"⟩
    file := ⟨"set/mix.json"⟩
    project := {
      version := "1.0"
      name := "Overture"
      tracks := [{ position := 0, title := "First", source := ⟨"first.wav"⟩, duration := 120.0 }] } }
  output := ⟨"overture.flac"⟩
  settings := { normalize := true }

/-- A run of the engine that measures a track. -/
def report : EngineScript where
  actions := [.say "\x7b\"input_i\":-23,\"input_tp\":-4,\"input_lra\":7,\"input_thresh\":-33\x7d".toUTF8.toList]

/-- A service with an engine that measures a track and then renders some audio. -/
def equippedToMeasure : Service := { equippedToRender with scripts := [report, { actions := [.write "AUDIO"] }] }

/-- Where the track is measured and the mix is rendered behind that. -/
def measuredFirst : List Move :=
  List.replicate 9 (.job 0) ++ [.engine 0] ++ List.replicate 10 (.job 0) ++ [.engine 0] ++ List.replicate 8 (.job 0)

def unequipped : Service where
  engine := {}

theorem invocations_of_moves?_measuredFirst :
    (∃ started final, equippedToMeasure.IsUnused ∧ equippedToMeasure.moves? [] = some equippedToMeasure ∧
      equippedToMeasure.start overture = .ok (0, started) ∧ started.moves? measuredFirst = some final ∧
      final.outcome? 0 = some (.completed ⟨"overture.flac"⟩) ∧
      (final.runsOf equippedToMeasure.scripts 0).length = 2 ∧
      ∃ found render plan, overture.Runs (final.runsOf equippedToMeasure.scripts 0) found render ∧ found.length = 1 ∧
        overture.Renders found render plan) ∧
    ∃ started final, unequipped.IsUnused ∧ unequipped.moves? [] = some unequipped ∧
      unequipped.start overture = .ok (0, started) ∧ started.moves? (List.replicate 6 (.job 0)) = some final ∧
      final.outcome? 0 = some (.failed (Failure.validation ["First"]).message) ∧
      (∃ found render, overture.Runs (final.runsOf [] 0) found render) ∧
      Misses [] ["First"] 9 started 0 (List.replicate 6 (.job 0)) final := by
  constructor
  · have hunused : equippedToMeasure.IsUnused := ⟨⟨rfl, rfl, rfl⟩, rfl⟩
    obtain ⟨started, hstart⟩ : ∃ started, equippedToMeasure.start overture = .ok (0, started) := ⟨_, rfl⟩
    obtain ⟨final, hrun, hended, hlength⟩ : ∃ final ∈ started.moves? measuredFirst,
        final.outcome? 0 = some (.completed ⟨"overture.flac"⟩) ∧
          (final.runsOf equippedToMeasure.scripts 0).length = 2 := by
      cases hstart
      decide +kernel
    obtain ⟨⟨found, render, hruns⟩, -⟩ :=
      @invocations_of_moves? equippedToMeasure equippedToMeasure _ _ [] _ 0 overture hunused rfl hstart hrun
    obtain ⟨hfound, plan, hrenders⟩ := hruns.rendered (by rw [hlength]; decide)
    exact ⟨started, final, hunused, rfl, hstart, hrun, hended, hlength, found, render, plan, hruns, hfound, hrenders⟩
  · have hunused : unequipped.IsUnused := ⟨⟨rfl, rfl, rfl⟩, rfl⟩
    obtain ⟨hruns, hmisses⟩ :=
      @invocations_of_moves? unequipped unequipped _ _ [] (List.replicate 6 (.job 0)) 0 overture hunused rfl rfl rfl
    exact ⟨_, _, hunused, rfl, rfl, rfl, rfl, hruns, hmisses (List.cons_ne_nil _ _)⟩

end Service

end Segue
