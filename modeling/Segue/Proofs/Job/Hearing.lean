import Segue.Job.Basic
import Segue.Proofs.Job.Invocations
import Segue.Proofs.Loudness.Cuts
import Segue.Proofs.Loudness.Noise

/-!
A measuring run as its job hears it, from its start to its end. Main statement: when the last block
of what the run says is ASCII, or there is none, then the job goes on the same way however the bytes
have been cut into pieces; only the message of a run that fails, which quotes the end of its output,
may show the cuts.
-/

namespace Segue

namespace Job

/-- A job asks for something and goes on with the answer. -/
def Takes (job : Job) (request : Request) (answer : request.Answer) (job' : Job) : Prop :=
  ∃ resume, job.next = .ask request resume ∧ resume answer = job'

/-- A job hears pieces of what its engine says, one after the other, and then that it says no more. -/
inductive Hears : Job → List (List UInt8) → Job → Prop
  | silence {job final : Job} (h : job.Takes .hearEngine .silence final) : Hears job [] final
  | piece {job job' final : Job} {bytes : List UInt8} {pieces : List (List UInt8)} (elapsed : Float)
      (h : job.Takes .hearEngine (.piece bytes elapsed) job') (hrest : Hears job' pieces final) :
      Hears job (bytes :: pieces) final

/-- A job that measures the track of an index hears the run in pieces, sees it end in some way, and
is not cancelled on the way. -/
inductive Measures (job : Job) (index : Nat) (pieces : List (List UInt8)) (status : ExitStatus) (final : Job) : Prop
  | run {ready started heard ended : Job} {arguments : List String}
      (hready : (job.runEngine (.measuring index [])).Takes .isCancelled false ready)
      (hstarted : ready.Takes (.startEngine arguments) (.ok ()) started) (hheard : started.Hears pieces heard)
      (hended : heard.Takes .awaitEngine (some status) ended) (hfinal : ended.Takes .isCancelled false final)

variable {job final : Job} {index : Nat} {heard : List Char} {tail : DiagnosticTail} {pieces : List (List UInt8)}

/-- All that is heard of a measuring run is kept, each piece decoded by itself. -/
theorem Hears.eq (h : (job.goTo (.engine (.measuring index heard) tail .hear)).Hears pieces final) :
    ∃ tail', final = job.goTo (.engine (.measuring index (heard ++ pieces.flatMap Text.decodeLossy)) tail' .await) := by
  induction pieces generalizing heard tail with
  | nil =>
      cases h with
      | silence h =>
          obtain ⟨resume, hnext, rfl⟩ := h
          cases hnext
          refine ⟨tail, ?_⟩
          rw [List.flatMap_nil, List.append_nil]
          rfl
  | cons bytes pieces ih =>
      cases h with
      | piece elapsed h hrest =>
          obtain ⟨resume, hnext, rfl⟩ := h
          cases hnext
          obtain ⟨tail', rfl⟩ := @ih (heard ++ Text.decodeLossy bytes) _ hrest
          refine ⟨tail', ?_⟩
          rw [List.flatMap_cons, List.append_assoc]

theorem exists_hears (job : Job) (index : Nat) (heard : List Char) (tail : DiagnosticTail)
    (pieces : List (List UInt8)) :
    ∃ final, (job.goTo (.engine (.measuring index heard) tail .hear)).Hears pieces final := by
  induction pieces generalizing heard tail with
  | nil => exact ⟨_, .silence ⟨_, rfl, rfl⟩⟩
  | cons bytes pieces ih =>
      obtain ⟨final, hrest⟩ := ih (heard ++ Text.decodeLossy bytes) (tail.push (Text.decodeLossy bytes))
      exact ⟨final, .piece 0 ⟨_, rfl, rfl⟩ hrest⟩

/-- Where a job is does not matter to how it goes on after a measuring run. -/
theorem finishRun_goTo (job : Job) (point : Point) (index : Nat) (heard : List Char) (tail : DiagnosticTail)
    (status : ExitStatus) :
    (job.goTo point).finishRun (.measuring index heard) tail status =
      job.finishRun (.measuring index heard) tail status := by
  unfold finishRun
  dsimp only
  split
  · rfl
  · split <;> rfl

variable {status : ExitStatus}

/-- After a measuring run a job goes on by what it has heard. -/
theorem Measures.eq (h : job.Measures index pieces status final) :
    ∃ tail, final = job.finishRun (.measuring index (pieces.flatMap Text.decodeLossy)) tail status := by
  obtain ⟨hready, hstarted, hheard, hended, hfinal⟩ := h
  obtain ⟨resume, hnext, rfl⟩ := hready
  cases hnext
  obtain ⟨resume, hnext, rfl⟩ := hstarted
  cases hnext
  have hheard' : (job.goTo (.engine (.measuring index []) {} .hear)).Hears pieces _ := hheard
  obtain ⟨tail, rfl⟩ := hheard'.eq
  obtain ⟨resume, hnext, rfl⟩ := hended
  cases hnext
  obtain ⟨resume, hnext, rfl⟩ := hfinal
  cases hnext
  exact ⟨tail, finishRun_goTo job _ index _ tail status⟩

theorem exists_measures (job : Job) (index : Nat) (pieces : List (List UInt8)) (status : ExitStatus) :
    ∃ final, job.Measures index pieces status final := by
  obtain ⟨heard, hheard⟩ := exists_hears job index [] {} pieces
  obtain ⟨tail, rfl⟩ := hheard.eq
  exact ⟨_, .run ⟨_, rfl, rfl⟩ ⟨_, rfl, rfl⟩ hheard ⟨_, rfl, rfl⟩ ⟨_, rfl, rfl⟩⟩

/-- What a job says of a measuring run that has failed, the end of the output quoted last. -/
def measuringFailure (job : Job) (index : Nat) (status : ExitStatus) (quoted : String) : Failure :=
  .analysis (job.titleOf index ++ ": loudness pass exited with " ++ status.text ++ "\n" ++ quoted)

theorem finishRun_of_failed (job : Job) (index : Nat) (heard : List Char) (tail : DiagnosticTail)
    (hfailed : status.isSuccess = false) :
    job.finishRun (.measuring index heard) tail status =
      job.fail (job.measuringFailure index status (Text.trim tail.text)) := by
  unfold finishRun
  rw [hfailed]
  rfl

/-- After a run that succeeds a job goes on by the last block of what it has heard, and by nothing
else. -/
theorem finishRun_congr (job : Job) (index : Nat) {heard heard' : List Char} (tail tail' : DiagnosticTail)
    (hsuccess : status.isSuccess = true) (hblock : Block.last? heard = Block.last? heard') :
    job.finishRun (.measuring index heard) tail status = job.finishRun (.measuring index heard') tail' status := by
  unfold finishRun
  simp only [hsuccess, Bool.not_true, Bool.false_eq_true, if_false]
  rw [Measurement.ofOutput_congr hblock]

/-- **Cuts in the output of a measuring run.** When the last block of the bytes that the run says is
ASCII, or there is none, then that block is what the job finds in the text, however the bytes have
been cut, inside of characters too; a run that succeeds leads to the same measurement or the same
failure, and one that fails to messages that differ at most in the end of the output that they
quote. -/
theorem measures_of_cuts {bytes : List UInt8} (hascii : ∀ block ∈ Block.ofBytes? bytes, ∀ c ∈ block, Text.IsAscii c)
    {pieces pieces' : List (List UInt8)} (hpieces : pieces.flatten = bytes) (hpieces' : pieces'.flatten = bytes)
    (job : Job) (index : Nat) (status : ExitStatus) :
    Block.last? (pieces.flatMap Text.decodeLossy) = Block.ofBytes? bytes ∧
      (∃ final, job.Measures index pieces status final) ∧
      ∀ final final', job.Measures index pieces status final → job.Measures index pieces' status final' →
        (status.isSuccess = true → final = final') ∧
        (status.isSuccess = false → ∃ quoted quoted', final = job.fail (job.measuringFailure index status quoted) ∧
          final' = job.fail (job.measuringFailure index status quoted')) := by
  subst hpieces
  have hblock := Block.last?_pieces hascii
  have hascii' : ∀ block ∈ Block.ofBytes? pieces'.flatten, ∀ c ∈ block, Text.IsAscii c := by
    rw [hpieces']
    exact hascii
  have hblock' := Block.last?_pieces hascii'
  refine ⟨hblock, exists_measures job index pieces status, fun final final' hfinal hfinal' => ?_⟩
  obtain ⟨tail, rfl⟩ := hfinal.eq
  obtain ⟨tail', rfl⟩ := hfinal'.eq
  constructor
  · intro hsuccess
    exact finishRun_congr job index tail tail' hsuccess (hblock.trans (hpieces' ▸ hblock'.symm))
  · intro hfailed
    exact ⟨_, _, finishRun_of_failed job index _ tail hfailed, finishRun_of_failed job index _ tail' hfailed⟩

def overtureJob : Job where
  id := 0
  request := Service.overture
  settingsFile := none

theorem measures_of_cuts_insideCharacter :
    ∃ final final', Block.ofBytes? [0xC3, 0xA9, 0x7B, 0x7D] = some ['\x7b', '\x7d'] ∧
      overtureJob.Measures 0 [[0xC3, 0xA9], [0x7B, 0x7D]] (.exited 0) final ∧
      overtureJob.Measures 0 [[0xC3], [0xA9, 0x7B], [0x7D]] (.exited 0) final' ∧ final = final' := by
  have hblock : Block.ofBytes? [0xC3, 0xA9, 0x7B, 0x7D] = some ['\x7b', '\x7d'] := rfl
  have hascii : ∀ block ∈ Block.ofBytes? [0xC3, 0xA9, 0x7B, 0x7D], ∀ c ∈ block, Text.IsAscii c := by
    simp [hblock, Text.IsAscii]
  obtain ⟨-, ⟨final, hfinal⟩, hsame⟩ := @measures_of_cuts _ hascii [[0xC3, 0xA9], [0x7B, 0x7D]]
    [[0xC3], [0xA9, 0x7B], [0x7D]] rfl rfl overtureJob 0 (.exited 0)
  obtain ⟨final', hfinal'⟩ := exists_measures overtureJob 0 [[0xC3], [0xA9, 0x7B], [0x7D]] (.exited 0)
  exact ⟨final, final', hblock, hfinal, hfinal', (hsame final final' hfinal hfinal').1 rfl⟩

/-- A cut inside of a character shows in the message of a run that fails. -/
theorem measures_quotedCharacter :
    ∃ final final', Block.ofBytes? [0xC3, 0xA9] = none ∧
      overtureJob.Measures 0 [[0xC3, 0xA9]] (.exited 1) final ∧
      overtureJob.Measures 0 [[0xC3], [0xA9]] (.exited 1) final' ∧
      final = overtureJob.fail (overtureJob.measuringFailure 0 (.exited 1) "é") ∧
      final' = overtureJob.fail (overtureJob.measuringFailure 0 (.exited 1) "\uFFFD\uFFFD") ∧
      (overtureJob.measuringFailure 0 (.exited 1) "é").message ≠
        (overtureJob.measuringFailure 0 (.exited 1) "\uFFFD\uFFFD").message := by
  have hfailed : (ExitStatus.exited 1).isSuccess = false := rfl
  refine ⟨_, _, rfl, .run ⟨_, rfl, rfl⟩ ⟨_, rfl, rfl⟩ (.piece 0 ⟨_, rfl, rfl⟩ (.silence ⟨_, rfl, rfl⟩)) ⟨_, rfl, rfl⟩
    ⟨_, rfl, rfl⟩, .run ⟨_, rfl, rfl⟩ ⟨_, rfl, rfl⟩
      (.piece 0 ⟨_, rfl, rfl⟩ (.piece 0 ⟨_, rfl, rfl⟩ (.silence ⟨_, rfl, rfl⟩))) ⟨_, rfl, rfl⟩
    ⟨_, rfl, rfl⟩, ?_, ?_, ?_⟩
  · have hquoted : Text.trim (DiagnosticTail.push {} (Text.decodeLossy [0xC3, 0xA9])).text = "é" := by decide +kernel
    rw [← hquoted]
    exact finishRun_of_failed overtureJob 0 (Text.decodeLossy [0xC3, 0xA9]) _ hfailed
  · have hquoted : Text.trim ((DiagnosticTail.push {} (Text.decodeLossy [0xC3])).push
        (Text.decodeLossy [0xA9])).text = "\uFFFD\uFFFD" := by decide +kernel
    rw [← hquoted]
    exact finishRun_of_failed overtureJob 0 (Text.decodeLossy [0xC3] ++ Text.decodeLossy [0xA9]) _ hfailed
  · intro hmessages
    have hquoted := (String.append_right_inj _).mp ((String.append_right_inj _).mp hmessages)
    revert hquoted
    decide

end Job

end Segue
