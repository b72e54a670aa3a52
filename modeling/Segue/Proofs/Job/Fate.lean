import Segue.Proofs.Job.Steps

/-!
When it is settled how a job ends. Main statement: that is settled in one step, from then on it
stays, and the only step that settles that a job completes is the last look whether it has been
cancelled.
-/

namespace Segue

/-- The phase that a job at some point is bound to end in. -/
def Point.fate? : Point → Option Phase
  | .announce _ next => next.fate?
  | .writeSheet | .readSettings _ | .stampSettings _ _ | .makeSettingsDirectory _ _ | .writeSettings _ _ =>
    some .complete
  | .engine _ _ .stop | .removeOutput => some .cancelled
  | .release outcome | .close outcome | .ended outcome => some outcome.phase
  | _ => none

def EngineUse.isEncoding : EngineUse → Bool
  | .encoding .. => true
  | .measuring .. => false

/-- Whether a job is about to look for the last time whether it has been cancelled. -/
def Point.isLastCheck : Point → Bool
  | .engine use _ (.checkAfter _) => use.isEncoding
  | _ => false

/-- Whether the answer depends on whether the job has been cancelled. -/
def Request.looks : Request → Bool
  | .isCancelled | .hearEngine | .awaitEngine => true
  | _ => false

theorem Point.fate?_of_isCheck {point : Point} (h : point.isCheck = true) : point.fate? = none := by
  rcases Point.check_cases h with ⟨_, rfl⟩ | ⟨_, rfl⟩ | ⟨_, rfl⟩ | ⟨_, _, rfl⟩ | ⟨_, _, _, rfl⟩ <;> rfl

namespace Job

/-- A job at this point may still end in any way, or has failed. -/
def IsOpen (point : Point) : Prop := point.fate? = none ∨ point.fate? = some .error

variable (job : Job)

theorem isOpen_checkSources (tracks : List (Track Float)) (missing : List String) :
    IsOpen (job.checkSources tracks missing).point := by
  unfold checkSources
  split
  · exact .inl rfl
  · split
    · exact .inl rfl
    · exact .inr rfl

theorem isOpen_measureFrom (index : Nat) : IsOpen (job.measureFrom index).point := by
  unfold measureFrom
  dsimp only [goTo]
  split <;> exact .inl rfl

theorem isOpen_prepare : IsOpen job.prepare.point := by
  unfold prepare
  dsimp only
  split
  · exact .inr rfl
  · split
    · split <;> exact .inl rfl
    · exact .inl rfl

theorem isOpen_enter {phase : Phase} (h : job.point = .enter phase) : IsOpen (job.enter phase).point := by
  cases phase with
  | validating => exact isOpen_checkSources job _ _
  | analyzing => exact isOpen_measureFrom job _
  | rendering => exact isOpen_prepare _
  | _ =>
      refine .inl ?_
      change job.point.fate? = none
      rw [h]
      rfl

theorem isOpen_hear (use : EngineUse) (tail : DiagnosticTail) (piece : List Char) (elapsed : Float) :
    IsOpen (job.hear use tail piece elapsed).point := by
  unfold hear
  cases use with
  | measuring => exact .inl rfl
  | encoding =>
      dsimp only
      split
      · exact .inl rfl
      · split <;> exact .inl rfl

theorem fate?_persist : job.persist.point.fate? = some .complete := by
  unfold persist
  split <;> rfl

theorem fate?_storeSettings (file : Path) (text : String) :
    (job.storeSettings file text).point.fate? = some .complete := by
  unfold storeSettings
  split <;> rfl

theorem isOpen_finishRun_measuring (index : Nat) (heard : List Char) (tail : DiagnosticTail) (status : ExitStatus) :
    IsOpen (job.finishRun (.measuring index heard) tail status).point := by
  unfold finishRun
  dsimp only
  split
  · exact .inr rfl
  · split
    · exact .inr rfl
    · exact .inl rfl

/-- Once the encoder has ended, the job fails or completes. -/
theorem fate?_finishRun_encoding (arguments : List String) (duration reached : Float) (tail : DiagnosticTail)
    (status : ExitStatus) :
    (job.finishRun (.encoding arguments duration reached) tail status).point.fate? = some .error ∨
      (job.finishRun (.encoding arguments duration reached) tail status).point.fate? = some .complete := by
  unfold finishRun
  dsimp only
  split
  · exact .inl rfl
  · split
    · exact .inr rfl
    · exact .inr (fate?_persist _)

variable {job} {job' : Job} {isCancelled : Bool} {request : Request} {answer : request.Answer}

/-- What is settled stays. -/
theorem Goes.fate?_eq (h : Goes isCancelled job request answer job') {phase : Phase}
    (hfate : job.point.fate? = some phase) : job'.point.fate? = some phase := by
  cases h with
  | announce hpoint | released hpoint | closed hpoint =>
      rw [hpoint] at hfate
      exact hfate
  | stopped hpoint | removed hpoint | settingsRead hpoint | settingsPlaceMade hpoint | settingsPlaceRefused hpoint
  | settingsWritten hpoint =>
      rw [hpoint] at hfate
      exact hfate
  | sheetWritten hpoint =>
      rw [hpoint] at hfate
      exact (fate?_persist job).trans hfate
  | settingsStamped hpoint =>
      rw [hpoint] at hfate
      exact (fate?_storeSettings job _ _).trans hfate
  | halt hcheck =>
      rw [Point.fate?_of_isCheck hcheck] at hfate
      cases hfate
  | _ =>
      rw [‹job.point = _›] at hfate
      cases hfate

/-- What a step can settle. -/
theorem Goes.fate?_cases (h : Goes isCancelled job request answer job') (hfate : job.point.fate? = none) :
    IsOpen job'.point ∨ job'.point.fate? = some .cancelled ∧ isCancelled = true ∨
      job'.point.fate? = some .complete ∧ isCancelled = false ∧ job.point.isLastCheck = true := by
  cases h with
  | halt _ hcancelled | stopHearing _ hcancelled | stopAwaiting _ hcancelled => exact .inr (.inl ⟨rfl, hcancelled⟩)
  | announce hpoint =>
      rw [hpoint] at hfate
      exact .inl (.inl hfate)
  | enter hpoint => exact .inl (isOpen_enter job hpoint)
  | checkSource => exact .inl (isOpen_checkSources job _ _)
  | measured => exact .inl (isOpen_measureFrom _ _)
  | heard => exact .inl (isOpen_hear job _ _ _ _)
  | @finishRun use tail status hpoint hcancelled =>
      cases use with
      | measuring index heard => exact .inl (isOpen_finishRun_measuring job _ _ _ _)
      | encoding arguments duration reached =>
          rcases fate?_finishRun_encoding job arguments duration reached tail status with hfail | hcomplete
          · exact .inl (.inr hfail)
          · exact .inr (.inr ⟨hcomplete, hcancelled, by rw [hpoint]; rfl⟩)
  | engineMissing | directoryRefused | startRefused => exact .inl (.inr rfl)
  | engineFound | measure | directoryMade | beforeStart | started | heardAll | awaited => exact .inl (.inl rfl)
  | _ =>
      rw [‹job.point = _›] at hfate
      cases hfate

/-- Only the last look settles that a job completes, and not when the job has been cancelled. -/
theorem Goes.fate?_ne_complete (h : Goes isCancelled job request answer job')
    (hlook : isCancelled = true ∨ job.point.isLastCheck = false) (hne : job.point.fate? ≠ some .complete) :
    job'.point.fate? ≠ some .complete := by
  intro hcomplete
  cases hfate : job.point.fate? with
  | some phase =>
      have hsame := (h.fate?_eq hfate).symm.trans hcomplete
      exact hne (hfate.trans hsame)
  | none =>
      rcases h.fate?_cases hfate with (hopen | hfail) | ⟨hcancelled, -⟩ | ⟨-, hflag, hlast⟩
      · cases hopen.symm.trans hcomplete
      · cases hfail.symm.trans hcomplete
      · cases hcancelled.symm.trans hcomplete
      · rcases hlook with hlook | hlook
        · cases hlook.symm.trans hflag
        · cases hlook.symm.trans hlast

/-- The last look settles how the job ends. -/
theorem Goes.fate?_isSome (h : Goes isCancelled job request answer job') (hlast : job.point.isLastCheck = true) :
    job'.point.fate?.isSome = true := by
  cases h with
  | halt => rfl
  | @finishRun use tail status hpoint =>
      cases use with
      | measuring =>
          rw [hpoint] at hlast
          cases hlast
      | encoding arguments duration reached =>
          rcases fate?_finishRun_encoding job arguments duration reached tail status with hfate | hfate <;>
            rw [hfate] <;> rfl
  | _ =>
      rw [‹job.point = _›] at hlast
      cases hlast

/-- Once it is settled how a job ends, it does not look any more. -/
theorem looks_of_next {resume : request.Answer → Job} (hnext : job.next = .ask request resume)
    (hfate : job.point.fate?.isSome = true) : request.looks = false := by
  rw [next] at hnext
  cases hpoint : job.point with
  | engine use tail stage =>
      rw [hpoint] at hnext hfate
      cases stage with
      | stop =>
          cases hnext
          rfl
      | _ => cases hfate
  | enter | beforeMeasuring | afterMeasuring =>
      rw [hpoint] at hfate
      cases hfate
  | ended =>
      rw [hpoint] at hnext
      cases hnext
  | _ =>
      rw [hpoint] at hnext
      cases hnext
      rfl

end Job

end Segue
