import Segue.Proofs.Job.Advancing

/-!
How far a job that does not complete is told to be at last. Main statement: its last event tells
what the job itself knows, which is no more than what was done before the encoder ran; so the event
goes back just when the encoder has got beyond that.
-/

namespace Segue

open Segue.Double

/-- What a job knows of how far it is, beside what has been told. Only what is told of rendering may
go beyond it, and there the job knows that measuring has been done. -/
structure Lags (percent : Float) (told : List Event) : Prop where
  isBetween : IsBetween 0 20 percent
  bounded : ∀ event ∈ told, event.phase ≠ .rendering → units event.percent ≤ units percent
  rendering : ∀ event ∈ told, event.phase = .rendering → IsBetween 20 20 percent

section Told

variable {percent : Float} {told : List Event} {event : Event}

/-- A job that has told no more than it knows. -/
theorem Climbs.lags (h : Climbs (units percent) told) (hpercent : IsBetween 0 20 percent) : Lags percent told where
  isBetween := hpercent
  bounded := fun event hevent _ => h.bounded event hevent
  rendering := by
    intro event hevent hphase
    have hleast := (h.ongoing event hevent).isBetween.low_le
    rw [hphase] at hleast
    exact ⟨hpercent.isFinite, hleast.trans (h.bounded event hevent), hpercent.le_high⟩

/-- A job that has told nothing to have been done. -/
theorem Climbs.lags_null (h : Climbs (0 * perOne : Nat) told) : Lags 0.0 told :=
  (h.mono isBetween_null.low_le).lags (isBetween_null.mono (Nat.le_refl 0) (by decide))

theorem Lags.concat (h : Lags percent told) (hown : event.phase ≠ .rendering → event.percent = percent)
    (hrendering : event.phase = .rendering → IsBetween 20 20 percent) : Lags percent (told ++ [event]) where
  isBetween := h.isBetween
  bounded := by
    intro other hother hphase
    rcases List.mem_append.mp hother with hbefore | hlast
    · exact h.bounded other hbefore hphase
    · rw [List.mem_singleton.mp hlast] at hphase ⊢
      rw [hown hphase]
  rendering := by
    intro other hother hphase
    rcases List.mem_append.mp hother with hbefore | hlast
    · exact h.rendering other hbefore hphase
    · rw [List.mem_singleton.mp hlast] at hphase
      exact hrendering hphase

end Told

/-- What has been told when the engine is run by a job that knows so much. -/
def EngineUse.Lags (percent : Float) (told : List Event) : EngineUse → Prop
  | .measuring .. => Segue.Lags percent told
  | .encoding .. => IsBetween 20 20 percent ∧ Segue.Lags percent told

/-- What has been told when a job that knows so much is at a point. Nothing is asked for when it is
bound to complete. -/
def Point.Lags (percent : Float) : Point → List Event → Prop
  | .announce event next, told => next.Lags percent (told ++ [event])
  | .makeDirectory _ use, told | .engine use _ _, told => use.Lags percent told
  | .enter _, told | .checkSource .., told | .checkEngine, told | .beforeMeasuring _, told | .afterMeasuring _, told
  | .removeOutput, told => Segue.Lags percent told
  | .writeSheet, _ | .readSettings _, _ | .stampSettings _ _, _ | .makeSettingsDirectory _ _, _
  | .writeSettings _ _, _ => True
  | .release outcome, told => outcome.phase ≠ .complete → Segue.Lags percent told
  | .close _, told | .ended _, told => ∃ before last, told = before ++ [last] ∧
      (last.phase ≠ .complete → Segue.Lags last.percent before)

theorem EngineUse.Lags.known {percent : Float} {told : List Event} {use : EngineUse} (h : use.Lags percent told) :
    Segue.Lags percent told := by
  cases use with
  | measuring => exact h
  | encoding => exact h.2

theorem Point.Lags.known {percent : Float} {told : List Event} {point : Point} (h : point.Lags percent told)
    (hcheck : point.isCheck = true) : Segue.Lags percent told := by
  cases point with
  | enter | beforeMeasuring | afterMeasuring => exact h
  | engine use tail stage => exact EngineUse.Lags.known h
  | _ => cases hcheck

namespace Job

variable {job job' : Job} {percent : Float} {told : List Event}

theorem checkSources_percent (tracks : List (Track Float)) (missing : List String) :
    (job.checkSources tracks missing).percent = job.percent := by
  unfold checkSources
  split
  · rfl
  · split <;> rfl

theorem lags_checkSources (tracks : List (Track Float)) (missing : List String) (h : Lags percent told) :
    (job.checkSources tracks missing).point.Lags percent told := by
  unfold checkSources
  split
  · exact h
  · split
    · exact h
    · exact fun _ => h

theorem lags_measureFrom (index : Nat) (h : Lags percent told) : (job.measureFrom index).point.Lags percent told := by
  unfold measureFrom
  dsimp only [goTo]
  split <;> exact h

theorem lags_prepare (hpercent : IsBetween 20 20 percent) (h : Lags percent told) :
    job.prepare.point.Lags percent told := by
  unfold prepare
  dsimp only
  split
  · exact fun _ => h
  · split
    · split <;> exact ⟨hpercent, h⟩
    · exact ⟨hpercent, h⟩

theorem lags_persist (job : Job) (percent : Float) (told : List Event) : job.persist.point.Lags percent told := by
  unfold persist
  split
  · trivial
  · exact fun hphase => absurd rfl hphase

/-- A job that enters a phase knows what has been told of the phases before. -/
theorem lags_enter {phase : Phase} (hpoint : job.point = .enter phase)
    (hclimbs : Climbs (phase.least * perOne : Nat) told) (h : Lags job.percent told) :
    (job.enter phase).point.Lags (job.enter phase).percent told := by
  cases phase with
  | validating => exact lags_checkSources _ _ (hclimbs.lags_null.concat (fun _ => rfl) nofun)
  | analyzing => exact lags_measureFrom _ (hclimbs.lags_null.concat (fun _ => rfl) nofun)
  | rendering =>
      have hshare := Progress.isBetween_measuringShare
      have hlags := (hclimbs.mono hshare.low_le).lags (hshare.mono (by decide) (Nat.le_refl 20))
      exact lags_prepare hshare (hlags.concat (fun _ => rfl) fun _ => hshare)
  | _ =>
      change job.point.Lags _ _
      rw [hpoint]
      exact h

/-- What the engine says while encoding is told, and the job does not know of it. -/
theorem lags_hear {use : EngineUse} (tail : DiagnosticTail) (piece : List Char) (elapsed : Float)
    (h : use.Lags job.percent told) :
    (job.hear use tail piece elapsed).point.Lags (job.hear use tail piece elapsed).percent told := by
  unfold hear
  cases use with
  | measuring index heard => exact h
  | encoding arguments duration reached =>
      dsimp only
      split
      · exact h
      · split
        · exact h
        · exact ⟨h.1, h.2.concat (fun hphase => absurd rfl hphase) fun _ => h.1⟩

theorem lags_finishRun {use : EngineUse} (tail : DiagnosticTail) (status : ExitStatus) (h : use.Lags job.percent told) :
    (job.finishRun use tail status).point.Lags (job.finishRun use tail status).percent told := by
  have hknown := h.known
  unfold finishRun
  cases use with
  | measuring index heard =>
      dsimp only
      split
      · exact fun _ => hknown
      · split
        · exact fun _ => hknown
        · exact hknown
  | encoding arguments duration reached =>
      dsimp only
      split
      · exact fun _ => hknown
      · split
        · trivial
        · exact lags_persist _ _ _

theorem lags_announceMeasured (htracks : job.tracks.length < 2 ^ 64) {index : Nat}
    (hclimbs : (EngineUse.measuring index []).Climbs job.tracks.length job.phase told) :
    (job.announceMeasured index).point.Lags (job.announceMeasured index).percent told := by
  obtain ⟨hphase, -, hclimbs⟩ := hclimbs
  have hmeasured := Progress.isBetween_afterMeasuring htracks (index + 1)
  have hlags := (hclimbs.mono (Progress.afterMeasuring_mono htracks (Nat.le_succ index))).lags hmeasured
  refine lags_measureFrom _ (hlags.concat (fun _ => rfl) fun hrendering => ?_)
  change job.phase = .rendering at hrendering
  rw [hphase] at hrendering
  cases hrendering

theorem lags_conclude (outcome : Outcome) (h : outcome.phase ≠ .complete → Lags job.percent told) :
    (job.conclude outcome).point.Lags (job.conclude outcome).percent told := by
  refine ⟨told, _, rfl, fun hphase => ?_⟩
  cases outcome with
  | completed => exact absurd rfl hphase
  | failed => exact h nofun
  | cancelled => exact h nofun

/-- Every step leaves what is told within what the job knows, but for rendering. -/
theorem Goes.lags {isCancelled : Bool} {asked : Request} {answer : asked.Answer}
    (h : Goes isCancelled job asked answer job') (htracks : job.tracks.length < 2 ^ 64)
    (hclimbs : job.point.Climbs job.tracks.length job.phase told) (hlags : job.point.Lags job.percent told) :
    job'.point.Lags job'.percent (told ++ asked.announced) := by
  by_cases hsilent : asked.announced = []
  case neg =>
    cases h with
    | announce hpoint =>
        rw [hpoint] at hlags
        exact hlags
    | _ => exact (hsilent rfl).elim
  rw [hsilent, List.append_nil]
  cases h with
  | announce => cases hsilent
  | halt hpoint => exact hlags.known hpoint
  | enter hpoint =>
      rw [hpoint] at hclimbs hlags
      exact lags_enter hpoint hclimbs hlags
  | checkSource hpoint =>
      rw [hpoint] at hlags
      rw [checkSources_percent]
      exact lags_checkSources _ _ hlags
  | engineMissing hpoint =>
      rw [hpoint] at hlags
      exact fun _ => hlags
  | measured hpoint =>
      rw [hpoint] at hclimbs
      exact lags_announceMeasured htracks hclimbs
  | directoryRefused hpoint | startRefused hpoint =>
      rw [hpoint] at hlags
      exact fun _ => EngineUse.Lags.known hlags
  | stopped hpoint =>
      rw [hpoint] at hlags
      exact EngineUse.Lags.known hlags
  | heard hpoint =>
      rw [hpoint] at hlags
      exact lags_hear _ _ _ hlags
  | finishRun hpoint =>
      rw [hpoint] at hlags
      exact lags_finishRun _ _ hlags
  | sheetWritten => exact lags_persist _ _ _
  | settingsStamped =>
      unfold storeSettings
      split <;> trivial
  | settingsPlaceRefused | settingsWritten => exact fun hphase => absurd rfl hphase
  | removed hpoint =>
      rw [hpoint] at hlags
      exact fun _ => hlags
  | released hpoint =>
      rw [hpoint] at hlags
      exact lags_conclude _ hlags
  | settingsRead | settingsPlaceMade => trivial
  | engineFound hpoint | measure hpoint | directoryMade hpoint | beforeStart hpoint | started hpoint | heardAll hpoint
  | stopHearing hpoint | awaited hpoint | stopAwaiting hpoint | closed hpoint =>
      rw [hpoint] at hlags
      exact hlags

theorem Reaches.lags {first : Job} (h : first.Reaches told job) (hfirst : first.point = .enter .validating)
    (hpercent : first.percent = 0.0) (htracks : first.tracks.length < 2 ^ 64) : job.point.Lags job.percent told := by
  induction h with
  | refl =>
      rw [hfirst, hpercent]
      exact Climbs.nil.lags_null
  | go hreaches hgoes ih =>
      exact hgoes.lags (by rwa [hreaches.keeps.length_tracks]) (hreaches.climbs hfirst htracks) ih

end Job

theorem Climbs.not_terminal {bound : Int} {told : List Event} {event : Event} (h : Climbs bound told)
    (hevent : event ∈ told) : event.phase.isTerminal ≠ true := by
  rw [(h.ongoing event hevent).going]
  exact Bool.false_ne_true

/-- Once the last event has been told, the job is at its end. -/
theorem Point.Climbs.isLast {tracks : Nat} {now : Phase} {point : Point} {told : List Event} {event : Event}
    (h : point.Climbs tracks now told) (hevent : event ∈ told) (hended : event.phase.isTerminal = true) :
    ∃ outcome, point = .close outcome ∨ point = .ended outcome := by
  induction point generalizing told with
  | close outcome => exact ⟨outcome, .inl rfl⟩
  | ended outcome => exact ⟨outcome, .inr rfl⟩
  | announce next point ih =>
      have hcloses : Closes (told ++ [next]) := by
        obtain ⟨outcome, rfl | rfl⟩ := ih h (List.mem_append_left _ hevent) <;> exact h
      obtain ⟨before, last, htold, hclimbs, -⟩ := hcloses
      obtain ⟨rfl, -⟩ := List.append_inj' htold rfl
      exact absurd hended (hclimbs.not_terminal hevent)
  | makeDirectory _ use | engine use =>
      cases use with
      | measuring => exact absurd hended (Climbs.not_terminal h.2.2 hevent)
      | encoding => exact absurd hended (Climbs.not_terminal h.2.2 hevent)
  | beforeMeasuring | afterMeasuring => exact absurd hended (Climbs.not_terminal h.2.2 hevent)
  | _ => exact absurd hended (Climbs.not_terminal h hevent)

theorem Lags.le_iff {percent : Float} {told : List Event} (h : Lags percent told)
    (hfinite : ∀ event ∈ told, event.percent.isFinite = true) :
    ((∀ event ∈ told, event.percent ≤ percent) ↔ ∀ event ∈ told, event.phase = .rendering → event.percent ≤ 20) ∧
      (∀ event ∈ told, event.phase ≠ .rendering → event.percent ≤ percent) ∧ percent ≤ 20 := by
  obtain ⟨htwenty, hunits⟩ := @ofNat_exact 20 (by decide)
  have hknown := h.isBetween.isFinite
  have hshare : percent ≤ 20 := (h.isBetween.le (by decide) (by decide)).2
  have hother : ∀ event ∈ told, event.phase ≠ .rendering → event.percent ≤ percent := fun event hevent hphase =>
    (le_iff_units (hfinite event hevent) hknown).mpr (h.bounded event hevent hphase)
  refine ⟨⟨fun hall event hevent _ => ?_, fun hall event hevent => ?_⟩, hother, hshare⟩
  · have hle := (le_iff_units (hfinite event hevent) hknown).mp (hall event hevent)
    exact (le_iff_units (hfinite event hevent) htwenty).mpr (hle.trans ((le_iff_units hknown htwenty).mp hshare))
  · by_cases hphase : event.phase = .rendering
    · have hle := (le_iff_units (hfinite event hevent) htwenty).mp (hall event hevent hphase)
      have hmeasured := (h.rendering event hevent hphase).low_le
      rw [← hunits] at hmeasured
      exact (le_iff_units (hfinite event hevent) hknown).mpr (hle.trans hmeasured)
    · exact hother event hevent hphase

namespace Service

/-- **The last event of a job that does not complete** never tells more than twenty percent, nor
less than what was told before rendering. It tells less than some event before it just when more
than twenty percent had been told of rendering: what the encoder reached is told, but the job does
not come to know of it. -/
theorem percent_le_last_iff {initial service started final : Service} {before after : List Move}
    {request : ExportRequest} {id : Nat} (hfresh : initial.IsFresh) (hbefore : initial.moves? before = some service)
    (hstart : service.start request = .ok (id, started)) (hafter : started.moves? after = some final)
    (htracks : request.mix.project.tracks.length < 2 ^ 64) {earlier : List Event} {last : Event}
    (htold : final.eventsOf id = earlier ++ [last]) (hended : last.phase = .error ∨ last.phase = .cancelled) :
    ((∀ event ∈ earlier, event.percent ≤ last.percent) ↔
        ∀ event ∈ earlier, event.phase = .rendering → event.percent ≤ 20) ∧
      (∀ event ∈ earlier, event.phase ≠ .rendering → event.percent ≤ last.percent) ∧ last.percent ≤ 20 := by
  obtain ⟨task, -, hreaches⟩ := reaches_of_start hfresh hbefore hstart hafter
  rw [htold] at hreaches
  have hclimbs := hreaches.climbs rfl htracks
  have hlags := hreaches.lags rfl rfl htracks
  have hterminal : last.phase.isTerminal = true := by
    rcases hended with hphase | hphase <;> rw [hphase] <;> rfl
  have hcomplete : last.phase ≠ .complete := by
    rcases hended with hphase | hphase <;> rw [hphase] <;> decide
  obtain ⟨outcome, hpoint⟩ := hclimbs.isLast (by simp) hterminal
  obtain ⟨others, final, heq, hknown⟩ : ∃ others final, earlier ++ [last] = others ++ [final] ∧
      (final.phase ≠ .complete → Lags final.percent others) := by
    rcases hpoint with hpoint | hpoint <;> rw [hpoint] at hlags <;> exact hlags
  obtain ⟨rfl, hsame⟩ := List.append_inj' heq rfl
  obtain rfl := List.singleton_inj.mp hsame
  refine (hknown hcomplete).le_iff fun event hevent => ?_
  obtain ⟨sofar, latest, hlatest, hongoing, -⟩ : Closes (earlier ++ [last]) := by
    rcases hpoint with hpoint | hpoint <;> rw [hpoint] at hclimbs <;> exact hclimbs
  obtain ⟨rfl, -⟩ := List.append_inj' hlatest rfl
  exact (hongoing.ongoing event hevent).isBetween.isFinite

/-- A service with an engine that says where it is and then gives up. -/
def brittle : Service :=
  { talkative with
    scripts := [{ actions := [.say "time=00:01:00.00 speed=2x".toUTF8.toList], status := .exited 1 }] }

/-- The moves of a job of one track up to its end, with an engine that says one thing. -/
def heardOut : List Move := List.replicate 8 (.job 0) ++ [.pass 30.0, .engine 0] ++ List.replicate 8 (.job 0)

theorem exists_told_brittle : ∃ started final earlier last, brittle.start opening = .ok (0, started) ∧
    started.moves? heardOut = some final ∧ final.eventsOf 0 = earlier ++ [last] ∧ last.phase = .error ∧
    last.percent = 20 ∧ (earlier.map fun event => (event.phase, event.percent)) =
      [(.validating, 0), (.rendering, 20), (.rendering, 60)] := by
  obtain ⟨started, hstart⟩ : ∃ started, brittle.start opening = .ok (0, started) := ⟨_, rfl⟩
  obtain ⟨final, hrun, hlast, hearlier⟩ : ∃ final ∈ started.moves? heardOut,
      (∃ last ∈ (final.eventsOf 0).getLast?, last.phase = .error ∧ last.percent = 20) ∧
        ((final.eventsOf 0).dropLast.map fun event => (event.phase, event.percent)) =
          [(.validating, 0), (.rendering, 20), (.rendering, 60)] := by
    cases hstart
    decide +kernel
  obtain ⟨last, hmem, hphase, hpercent⟩ := hlast
  have htold := (List.dropLast_append_getLast? last hmem).symm
  exact ⟨started, final, _, last, hstart, hrun, htold, hphase, hpercent, hearlier⟩

theorem percent_le_last_iff_brittle : ∃ started final earlier last, brittle.IsFresh ∧
    brittle.moves? [] = some brittle ∧ brittle.start opening = .ok (0, started) ∧
    started.moves? heardOut = some final ∧ opening.mix.project.tracks.length < 2 ^ 64 ∧
    final.eventsOf 0 = earlier ++ [last] ∧ last.phase = .error ∧
    ((∀ event ∈ earlier, event.percent ≤ last.percent) ↔
      ∀ event ∈ earlier, event.phase = .rendering → event.percent ≤ 20) := by
  obtain ⟨started, final, earlier, last, hstart, hrun, htold, hphase, -, -⟩ := exists_told_brittle
  have hfresh : brittle.IsFresh := ⟨rfl, rfl, rfl⟩
  exact ⟨started, final, earlier, last, hfresh, rfl, hstart, hrun, by decide, htold, hphase,
    (@percent_le_last_iff brittle brittle started final [] heardOut opening 0 hfresh rfl hstart hrun (by decide)
      earlier last htold (.inl hphase)).1⟩

/-- The encoder has told of sixty percent, and the job ends at twenty. -/
theorem goesBack_of_brittle : ∃ started final earlier last, brittle.IsFresh ∧
    brittle.start opening = .ok (0, started) ∧ started.moves? heardOut = some final ∧
    final.eventsOf 0 = earlier ++ [last] ∧ last.phase = .error ∧ last.percent = 20 ∧
    ∃ event ∈ earlier, event.percent = 60 ∧ ¬ event.percent ≤ last.percent := by
  obtain ⟨started, final, earlier, last, hstart, hrun, htold, hphase, hpercent, hearlier⟩ := exists_told_brittle
  have hmem : (Phase.rendering, (60 : Float)) ∈ earlier.map fun event => (event.phase, event.percent) := by
    rw [hearlier]
    simp
  obtain ⟨event, hevent, heq⟩ := List.mem_map.mp hmem
  obtain ⟨-, hsixty⟩ := Prod.mk.inj heq
  have hfresh : brittle.IsFresh := ⟨rfl, rfl, rfl⟩
  refine ⟨started, final, earlier, last, hfresh, hstart, hrun, htold, hphase, hpercent, event, hevent, hsixty, ?_⟩
  rw [hsixty, hpercent]
  decide

end Service

end Segue
