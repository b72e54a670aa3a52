import Segue.Proofs.Job.Fate
import Segue.Proofs.Job.Slot

/-!
The stages of a job: it prepares its render, encodes it, finishes it, and is over. Main statements:
a job is over only by giving back the slot, and the engine has been started to encode only by that
start.
-/

namespace Segue

/-- Whether the engine has not been started yet for a run of it. -/
def EngineStage.isBefore : EngineStage → Bool
  | .checkBefore | .start => true
  | _ => false

/-- Whether the engine has not been started to encode, and the job has not been cancelled: it still
prepares, or has failed to. -/
def Point.isPreparing : Point → Bool
  | .announce _ next => next.isPreparing
  | .enter _ | .checkSource .. | .checkEngine | .beforeMeasuring _ | .afterMeasuring _ | .makeDirectory .. => true
  | .engine use _ stage => !use.isEncoding || stage.isBefore
  | .release (.failed _) => true
  | _ => false

/-- Whether the engine has been started to encode, and the job may still complete. -/
def Point.isEncoding : Point → Bool
  | .announce _ next => next.isEncoding
  | .engine use _ stage => use.isEncoding && !stage.isBefore
  | .writeSheet | .readSettings _ | .stampSettings _ _ | .makeSettingsDirectory _ _ | .writeSettings _ _ => true
  | .release (.completed _) | .close (.completed _) | .ended (.completed _) => true
  | _ => false

theorem Point.not_isOver_of_isPreparing {point : Point} (h : point.isPreparing = true) : point.isOver = false := by
  induction point with
  | announce event next ih => exact ih h
  | close | ended => cases h
  | _ => rfl

theorem Point.not_isEncoding_of_isPreparing {point : Point} (h : point.isPreparing = true) :
    point.isEncoding = false := by
  induction point with
  | announce event next ih => exact ih h
  | engine use tail stage =>
      have hbefore : (!use.isEncoding || stage.isBefore) = true := h
      change (use.isEncoding && !stage.isBefore) = false
      rw [Bool.or_eq_true, Bool.not_eq_true'] at hbefore
      rcases hbefore with huse | hstage
      · rw [huse, Bool.false_and]
      · rw [hstage, Bool.not_true, Bool.and_false]
  | release outcome =>
      cases outcome with
      | failed => rfl
      | completed | cancelled => cases h
  | writeSheet | readSettings | stampSettings | makeSettingsDirectory | writeSettings | close | ended => cases h
  | _ => rfl

namespace Job

variable (job : Job)

theorem isPreparing_checkSources (tracks : List (Track Float)) (missing : List String) :
    (job.checkSources tracks missing).point.isPreparing = true := by
  unfold checkSources
  split
  · rfl
  · split <;> rfl

theorem isPreparing_measureFrom (index : Nat) : (job.measureFrom index).point.isPreparing = true := by
  unfold measureFrom
  dsimp only [goTo]
  split <;> rfl

theorem isPreparing_prepare : job.prepare.point.isPreparing = true := by
  unfold prepare
  dsimp only
  split
  · rfl
  · split
    · split <;> rfl
    · rfl

theorem isPreparing_enter {phase : Phase} (h : job.point = .enter phase) :
    (job.enter phase).point.isPreparing = true := by
  cases phase with
  | validating => exact isPreparing_checkSources job _ _
  | analyzing => exact isPreparing_measureFrom job _
  | rendering => exact isPreparing_prepare _
  | _ =>
      change job.point.isPreparing = true
      rw [h]
      rfl

theorem isPreparing_finishRun_measuring (index : Nat) (heard : List Char) (tail : DiagnosticTail)
    (status : ExitStatus) : (job.finishRun (.measuring index heard) tail status).point.isPreparing = true := by
  unfold finishRun
  dsimp only
  split
  · rfl
  · split <;> rfl

theorem isOver_persist : job.persist.point.isOver = false := by
  unfold persist
  split <;> rfl

theorem isOver_storeSettings (file : Path) (text : String) : (job.storeSettings file text).point.isOver = false := by
  unfold storeSettings
  split <;> rfl

/-- What is heard is taken in, and may be announced. -/
theorem hear_cases (use : EngineUse) (tail : DiagnosticTail) (piece : List Char) (elapsed : Float) :
    ∃ use' tail', use'.isEncoding = use.isEncoding ∧
      (job.hear use tail piece elapsed = job.goTo (.engine use' tail' .hear) ∨
        ∃ event, job.hear use tail piece elapsed = job.goTo (.announce event (.engine use' tail' .hear))) := by
  unfold hear
  cases use with
  | measuring index heard => exact ⟨.measuring index (heard ++ piece), tail.push piece, rfl, .inl rfl⟩
  | encoding =>
      dsimp only
      split
      · exact ⟨_, _, rfl, .inl rfl⟩
      · split
        · exact ⟨_, _, rfl, .inl rfl⟩
        · refine ⟨_, _, ?_, .inr ⟨_, rfl⟩⟩
          rfl

/-- Once the encoder has ended, the job fails, or goes on to its cue sheet, or does without one. -/
theorem finishRun_encoding_cases {use : EngineUse} (huse : use.isEncoding = true) (tail : DiagnosticTail)
    (status : ExitStatus) :
    (∃ failure, job.finishRun use tail status = job.fail failure) ∨
      (∃ event, (job.finishRun use tail status).point = .announce event .writeSheet) ∨
      job.request.settings.writesCueSheet = false ∧
        job.finishRun use tail status = ({ job with percent := 100.0 } : Job).persist := by
  unfold finishRun
  cases use with
  | measuring => cases huse
  | encoding =>
      dsimp only
      split
      · exact .inl ⟨_, rfl⟩
      · split
        · exact .inr (.inl ⟨_, rfl⟩)
        · rename_i hsheet
          exact .inr (.inr ⟨Bool.eq_false_iff.mpr hsheet, rfl⟩)

theorem isOver_finishRun (use : EngineUse) (tail : DiagnosticTail) (status : ExitStatus) :
    (job.finishRun use tail status).point.isOver = false := by
  cases huse : use.isEncoding with
  | false =>
      cases use with
      | measuring => exact Point.not_isOver_of_isPreparing (isPreparing_finishRun_measuring job _ _ _ _)
      | encoding => cases huse
  | true =>
      rcases finishRun_encoding_cases job huse tail status with ⟨_, h⟩ | ⟨_, h⟩ | ⟨-, h⟩
      · rw [h]
        rfl
      · rw [h]
        rfl
      · rw [h]
        exact isOver_persist _

theorem isOver_hear (use : EngineUse) (tail : DiagnosticTail) (piece : List Char) (elapsed : Float) :
    (job.hear use tail piece elapsed).point.isOver = false := by
  obtain ⟨_, _, -, h | ⟨_, h⟩⟩ := hear_cases job use tail piece elapsed <;> rw [h] <;> rfl

variable {job} {job' : Job} {isCancelled : Bool} {request : Request} {answer : request.Answer}

/-- The steps that lead to a point where a job is over. -/
theorem Goes.isOver_cases (h : Goes isCancelled job request answer job') (hover : job'.point.isOver = true) :
    (∃ event next, job.point = .announce event next ∧ request = .announce event ∧ job' = job.goTo next) ∨
      (∃ outcome, job.point = .release outcome ∧ request = .releaseSlot ∧ job' = job.conclude outcome) ∨
      ∃ outcome, job.point = .close outcome ∧ request = .releaseSlot ∧ job' = job.goTo (.ended outcome) := by
  have hnot : job'.point.isOver ≠ false := by simp [hover]
  cases h with
  | announce hpoint => exact .inl ⟨_, _, hpoint, rfl, rfl⟩
  | released hpoint => exact .inr (.inl ⟨_, hpoint, rfl, rfl⟩)
  | closed hpoint => exact .inr (.inr ⟨_, hpoint, rfl, rfl⟩)
  | enter hpoint => exact (hnot (Point.not_isOver_of_isPreparing (isPreparing_enter job hpoint))).elim
  | checkSource => exact (hnot (Point.not_isOver_of_isPreparing (isPreparing_checkSources job _ _))).elim
  | measured => exact (hnot (Point.not_isOver_of_isPreparing (isPreparing_measureFrom _ _))).elim
  | heard => exact (hnot (isOver_hear job _ _ _ _)).elim
  | finishRun => exact (hnot (isOver_finishRun job _ _ _)).elim
  | sheetWritten => exact (hnot (isOver_persist job)).elim
  | settingsStamped => exact (hnot (isOver_storeSettings job _ _)).elim
  | _ => exact (hnot rfl).elim

/-- A job that is not over becomes so by giving back the slot. -/
theorem Goes.isOver_turns (h : Goes isCancelled job request answer job') (hover : job'.point.isOver = true) :
    job.point.isOver = true ∨ request.isRelease = true := by
  rcases h.isOver_cases hover with ⟨event, next, hpoint, -, rfl⟩ | ⟨outcome, -, rfl, -⟩ | ⟨outcome, -, rfl, -⟩
  · rw [hpoint]
    exact .inl hover
  · exact .inr rfl
  · exact .inr rfl

/-- The only step by which the engine comes to have been started to encode is that start. -/
theorem Goes.isEncoding_turns (h : Goes isCancelled job request answer job')
    (hencoding : job'.point.isEncoding = true) :
    job.point.isEncoding = true ∨
      ∃ use tail, use.isEncoding = true ∧ job.point = .engine use tail .start ∧
        request.started answer = [job.argumentsOf use] := by
  have hnot : job'.point.isEncoding ≠ false := by simp [hencoding]
  cases h with
  | announce hpoint =>
      rw [hpoint]
      exact .inl hencoding
  | enter hpoint => exact (hnot (Point.not_isEncoding_of_isPreparing (isPreparing_enter job hpoint))).elim
  | checkSource => exact (hnot (Point.not_isEncoding_of_isPreparing (isPreparing_checkSources job _ _))).elim
  | measured => exact (hnot (Point.not_isEncoding_of_isPreparing (isPreparing_measureFrom _ _))).elim
  | @started use tail hpoint =>
      exact .inr ⟨use, tail, (Bool.and_eq_true_iff.mp hencoding).1, hpoint, rfl⟩
  | directoryMade | beforeStart => exact (hnot (Bool.and_false _)).elim
  | @heard use tail hpoint hcancelled bytes elapsed =>
      rw [hpoint]
      cases use with
      | measuring => cases hencoding
      | encoding => exact .inl rfl
  | @finishRun use tail status hpoint =>
      rw [hpoint]
      cases use with
      | measuring =>
          exact (hnot (Point.not_isEncoding_of_isPreparing (isPreparing_finishRun_measuring job _ _ _ _))).elim
      | encoding => exact .inl rfl
  | heardAll hpoint | stopHearing hpoint | awaited hpoint | stopAwaiting hpoint =>
      rw [hpoint]
      exact .inl hencoding
  | sheetWritten hpoint | settingsRead hpoint | settingsStamped hpoint | settingsPlaceMade hpoint
  | settingsPlaceRefused hpoint | settingsWritten hpoint =>
      rw [hpoint]
      exact .inl rfl
  | @released outcome hpoint | @closed outcome hpoint =>
      rw [hpoint]
      cases outcome with
      | completed => exact .inl rfl
      | failed | cancelled => cases hencoding
  | _ => exact (hnot rfl).elim

end Job

end Segue
