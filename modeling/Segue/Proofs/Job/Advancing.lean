import Segue.Proofs.Files.Removal
import Segue.Proofs.Job.History
import Segue.Proofs.Progress.Percentages

/-!
How far observers are told that a job is. Main statement: until a job ends, what it is told to have
done never gets less and stays within the part of its phase, whatever the engine says; a job that is
complete has done everything; and no time that is left is negative.
-/

namespace Segue

open Segue.Double

/-- What a phase may be told to have done, in percent. -/
def Phase.least : Phase → Nat
  | .rendering => 20
  | _ => 0

def Phase.most : Phase → Nat
  | .analyzing => 20
  | _ => 100

/-- An event of a job that goes on. -/
structure Event.IsOngoing (event : Event) : Prop where
  going : event.phase.isTerminal = false
  isBetween : IsBetween event.phase.least event.phase.most event.percent
  remaining : ∀ seconds, event.remaining = some seconds → 0 ≤ seconds

structure Event.IsLast (event : Event) : Prop where
  ended : event.phase.isTerminal = true
  complete : event.phase = .complete → event.percent = 100.0
  silent : event.remaining = none

/-- What is told of a job that goes on climbs up to so many units. -/
structure Climbs (bound : Int) (told : List Event) : Prop where
  ongoing : ∀ event ∈ told, event.IsOngoing
  ordered : told.Pairwise fun event later => units event.percent ≤ units later.percent
  bounded : ∀ event ∈ told, units event.percent ≤ bound

namespace Climbs

variable {bound next : Int} {told : List Event} {event : Event}

theorem nil : Climbs bound [] := ⟨nofun, .nil, nofun⟩

theorem mono (h : Climbs bound told) (hle : bound ≤ next) : Climbs next told :=
  ⟨h.ongoing, h.ordered, fun event hevent => (h.bounded event hevent).trans hle⟩

/-- One more event is told, which does not go back. -/
theorem concat (h : Climbs bound told) (hevent : event.IsOngoing) (hle : bound ≤ units event.percent)
    (hnext : units event.percent ≤ next) : Climbs next (told ++ [event]) where
  ongoing := by
    intro other hother
    rcases List.mem_append.mp hother with hbefore | hlast
    · exact h.ongoing other hbefore
    · exact List.mem_singleton.mp hlast ▸ hevent
  ordered := by
    refine List.pairwise_append.mpr ⟨h.ordered, List.pairwise_singleton _ _, ?_⟩
    intro earlier hearlier later hlater
    rw [List.mem_singleton.mp hlater]
    exact (h.bounded earlier hearlier).trans hle
  bounded := by
    intro other hother
    rcases List.mem_append.mp hother with hbefore | hlast
    · exact (h.bounded other hbefore).trans (hle.trans hnext)
    · exact List.mem_singleton.mp hlast ▸ hnext

end Climbs

/-- All that is told of a job: it climbs, and the last event has come or not. -/
def Closes (told : List Event) : Prop := ∃ before last, told = before ++ [last] ∧
  Climbs (100 * perOne : Nat) before ∧ last.IsLast

/-- What has been told when the engine is run by a job of so many tracks in a phase. -/
def EngineUse.Climbs (tracks : Nat) (now : Phase) (told : List Event) : EngineUse → Prop
  | .measuring index _ => now = .analyzing ∧ index < tracks ∧
      Segue.Climbs (units (Progress.afterMeasuring index tracks)) told
  | .encoding _ duration reached => 0 ≤ duration ∧ IsBetween 20 100 reached ∧ Segue.Climbs (units reached) told

/-- What has been told when a job of so many tracks is at a point in a phase. -/
def Point.Climbs (tracks : Nat) (now : Phase) : Point → List Event → Prop
  | .enter phase, told => Segue.Climbs (phase.least * perOne : Nat) told
  | .announce event next, told => next.Climbs tracks now (told ++ [event])
  | .checkSource .., told | .checkEngine, told => Segue.Climbs 0 told
  | .beforeMeasuring index, told | .afterMeasuring index, told =>
    (EngineUse.measuring index []).Climbs tracks now told
  | .makeDirectory _ use, told | .engine use _ _, told => use.Climbs tracks now told
  | .writeSheet, told | .readSettings _, told | .stampSettings _ _, told | .makeSettingsDirectory _ _, told
  | .writeSettings _ _, told | .removeOutput, told | .release _, told => Segue.Climbs (100 * perOne : Nat) told
  | .close _, told | .ended _, told => Closes told

section Full

variable {tracks : Nat} {now : Phase} {told : List Event}

theorem EngineUse.Climbs.full {use : EngineUse} (htracks : tracks < 2 ^ 64) (h : use.Climbs tracks now told) :
    Segue.Climbs (100 * perOne : Nat) told := by
  cases use with
  | measuring index heard =>
      obtain ⟨-, -, hclimbs⟩ := h
      have hmost := (Progress.isBetween_afterMeasuring htracks index).le_high
      exact hclimbs.mono (by omega)
  | encoding arguments duration reached =>
      obtain ⟨-, hreached, hclimbs⟩ := h
      exact hclimbs.mono hreached.le_high

/-- Wherever a job looks whether it has been cancelled, it has climbed. -/
theorem Point.Climbs.full {point : Point} (htracks : tracks < 2 ^ 64) (h : point.Climbs tracks now told)
    (hcheck : point.isCheck = true) : Segue.Climbs (100 * perOne : Nat) told := by
  cases point with
  | enter phase =>
      have hclimbs : Segue.Climbs (phase.least * perOne : Nat) told := h
      refine hclimbs.mono (Int.ofNat_le.mpr (Nat.mul_le_mul_right perOne ?_))
      cases phase <;> decide
  | beforeMeasuring index => exact EngineUse.Climbs.full htracks h
  | afterMeasuring index => exact EngineUse.Climbs.full htracks h
  | engine use tail stage => exact EngineUse.Climbs.full htracks h
  | _ => cases hcheck

end Full

namespace Job

variable {job job' : Job} {now : Phase} {told : List Event}

theorem climbs_checkSources {count : Nat} (tracks : List (Track Float)) (missing : List String)
    (h : Climbs 0 told) : (job.checkSources tracks missing).point.Climbs count now told := by
  unfold checkSources
  split
  · exact h
  · split
    · exact h
    · exact h.mono (Int.natCast_nonneg _)

theorem climbs_measureFrom (htracks : job.tracks.length < 2 ^ 64) {index : Nat} {bound : Int}
    (hbound : bound ≤ units (Progress.afterMeasuring index job.tracks.length)) (h : Climbs bound told) :
    (job.measureFrom index).point.Climbs job.tracks.length .analyzing told := by
  have hclimbs := h.mono hbound
  unfold measureFrom
  split
  · rename_i hlt
    exact ⟨rfl, hlt, hclimbs⟩
  · exact hclimbs.mono (Progress.isBetween_afterMeasuring htracks index).le_high

theorem duration_nonneg {mix : Mix Float} {settings : ExportSettings} {output : Path} {plan : RenderPlan}
    (h : mix.plan settings output = .ok plan) : 0 ≤ plan.duration := by
  obtain ⟨graph, -, h⟩ := bind_eq_ok.mp h
  cases h
  exact mixDuration_nonneg _ _

theorem climbs_prepare {tracks : Nat} (hpercent : IsBetween 20 100 job.percent) (h : Climbs (units job.percent) told) :
    job.prepare.point.Climbs tracks now told := by
  unfold prepare
  dsimp only
  split
  · exact h.mono hpercent.le_high
  · rename_i plan hplan
    have hencoding : (EngineUse.encoding plan.arguments plan.duration job.percent).Climbs tracks now told :=
      ⟨duration_nonneg hplan, hpercent, h⟩
    split
    · split
      · exact hencoding
      · exact hencoding
    · exact hencoding

theorem climbs_persist {tracks : Nat} (h : Climbs (100 * perOne : Nat) told) :
    job.persist.point.Climbs tracks now told := by
  unfold persist
  split <;> exact h

theorem climbs_storeSettings {tracks : Nat} (file : Path) (text : String) (h : Climbs (100 * perOne : Nat) told) :
    (job.storeSettings file text).point.Climbs tracks now told := by
  unfold storeSettings
  split <;> exact h

/-- A job that enters a phase tells that nothing of it has been done. -/
theorem climbs_enter (htracks : job.tracks.length < 2 ^ 64) {phase : Phase} (hpoint : job.point = .enter phase)
    (h : Climbs (phase.least * perOne : Nat) told) :
    (job.enter phase).point.Climbs job.tracks.length (job.enter phase).phase told := by
  have hnull := isBetween_null
  cases phase with
  | validating =>
      have hevent : (({ job with phase := .validating, percent := 0.0 } : Job).event none none).IsOngoing :=
        ⟨rfl, hnull.mono (Nat.le_refl 0) (Nat.zero_le 100), nofun⟩
      have hunits : units 0.0 = 0 := rfl
      exact climbs_checkSources _ _ (h.concat hevent hnull.low_le hunits.le)
  | analyzing =>
      have hevent : (({ job with phase := .analyzing, percent := 0.0 } : Job).event none none).IsOngoing :=
        ⟨rfl, hnull.mono (Nat.le_refl 0) (Nat.zero_le 20), nofun⟩
      have hmeasured := Progress.isBetween_afterMeasuring htracks 0
      exact climbs_measureFrom htracks hmeasured.low_le (h.concat hevent hnull.low_le hnull.le_high)
  | rendering =>
      have hshare := Progress.isBetween_measuringShare
      have hbetween : IsBetween 20 100 (Progress.measuringShare : Float) :=
        hshare.mono (Nat.le_refl 20) (by decide)
      have hevent : (({ job with phase := .rendering, percent := Progress.measuringShare } : Job).event none
          none).IsOngoing := ⟨rfl, hbetween, nofun⟩
      exact climbs_prepare hbetween (h.concat hevent hshare.low_le (Int.le_refl _))
  | _ =>
      change job.point.Climbs _ _ _
      rw [hpoint]
      exact h

/-- What is heard of the engine is announced while encoding only, and not when it would go back. -/
theorem climbs_hear {use : EngineUse} {tracks : Nat} (tail : DiagnosticTail) (piece : List Char) (elapsed : Float)
    (h : use.Climbs tracks job.phase told) :
    (job.hear use tail piece elapsed).point.Climbs tracks (job.hear use tail piece elapsed).phase told := by
  unfold hear
  cases use with
  | measuring index heard => exact h
  | encoding arguments duration reached =>
      dsimp only
      split
      · exact h
      · rename_i encoded hencoded
        split
        · exact h
        · rename_i hforward
          obtain ⟨hduration, hreached, hclimbs⟩ := h
          have hbetween := Progress.isBetween_rendering (Progress.isFinite_of_elapsed? hencoded) hduration elapsed
          rw [lt_iff_units hbetween.isFinite hreached.isFinite, not_lt] at hforward
          refine ⟨hduration, hbetween, hclimbs.concat ⟨rfl, hbetween, ?_⟩ hforward (Int.le_refl _)⟩
          intro seconds hseconds
          exact Progress.remaining_nonneg hseconds

theorem climbs_finishRun {use : EngineUse} {tracks : Nat} (htracks : tracks < 2 ^ 64) (tail : DiagnosticTail)
    (status : ExitStatus) (h : use.Climbs tracks job.phase told) :
    (job.finishRun use tail status).point.Climbs tracks (job.finishRun use tail status).phase told := by
  have hfull := h.full htracks
  unfold finishRun
  cases use with
  | measuring index heard =>
      dsimp only
      split
      · exact hfull
      · split
        · exact hfull
        · exact h
  | encoding arguments duration reached =>
      dsimp only
      split
      · exact hfull
      · split
        · have hwhole := isBetween_whole
          have hevent : (({ job with phase := .cue, percent := 100.0 } : Job).event none none).IsOngoing :=
            ⟨rfl, hwhole.mono (Nat.zero_le 100) (Nat.le_refl 100), nofun⟩
          exact hfull.concat hevent hwhole.low_le hwhole.le_high
        · exact climbs_persist hfull

/-- A track that has been measured does not set the job back. -/
theorem climbs_announceMeasured (htracks : job.tracks.length < 2 ^ 64) {index : Nat}
    (h : (EngineUse.measuring index []).Climbs job.tracks.length job.phase told) :
    (job.announceMeasured index).point.Climbs job.tracks.length (job.announceMeasured index).phase told := by
  obtain ⟨hphase, -, hclimbs⟩ := h
  obtain ⟨percent, hpercent⟩ : ∃ percent : Float, percent = Progress.afterMeasuring (index + 1) job.tracks.length :=
    ⟨_, rfl⟩
  have hmono := Progress.afterMeasuring_mono htracks (Nat.le_succ index)
  have hevent : (({ job with percent } : Job).event (some ("Analyzed " ++ job.titleOf index)) none).IsOngoing := by
    refine ⟨?_, ?_, nofun⟩
    · change job.phase.isTerminal = false
      rw [hphase]
      rfl
    · change IsBetween job.phase.least job.phase.most percent
      rw [hphase, hpercent]
      exact Progress.isBetween_afterMeasuring htracks (index + 1)
  rw [hpercent] at hevent
  have hnext := climbs_measureFrom htracks (Int.le_refl _) (hclimbs.concat hevent hmono (Int.le_refl _))
  rw [← hphase] at hnext
  exact hnext

theorem climbs_conclude {tracks : Nat} (outcome : Outcome) (h : Climbs (100 * perOne : Nat) told) :
    (job.conclude outcome).point.Climbs tracks (job.conclude outcome).phase told := by
  refine ⟨told, _, rfl, h, ?_⟩
  cases outcome with
  | completed output => exact ⟨rfl, fun _ => rfl, rfl⟩
  | failed message => exact ⟨rfl, nofun, rfl⟩
  | cancelled => exact ⟨rfl, nofun, rfl⟩

theorem Goes.climbs_of_silent {isCancelled : Bool} {asked : Request} {answer : asked.Answer}
    (h : Goes isCancelled job asked answer job') (hsilent : asked.announced = [])
    (htracks : job.tracks.length < 2 ^ 64) (hclimbs : job.point.Climbs job.tracks.length job.phase told) :
    job'.point.Climbs job.tracks.length job'.phase told := by
  cases h with
  | announce => cases hsilent
  | halt hpoint => exact hclimbs.full htracks hpoint
  | enter hpoint =>
      rw [hpoint] at hclimbs
      exact climbs_enter htracks hpoint hclimbs
  | checkSource hpoint =>
      rw [hpoint] at hclimbs
      exact climbs_checkSources _ _ hclimbs
  | engineFound hpoint =>
      rw [hpoint] at hclimbs
      have hnext : Climbs 0 told := hclimbs
      exact hnext.mono (Int.natCast_nonneg _)
  | engineMissing hpoint =>
      rw [hpoint] at hclimbs
      have hnext : Climbs 0 told := hclimbs
      exact hnext.mono (Int.natCast_nonneg _)
  | measured hpoint =>
      rw [hpoint] at hclimbs
      exact climbs_announceMeasured htracks hclimbs
  | directoryRefused hpoint | startRefused hpoint | stopped hpoint =>
      rw [hpoint] at hclimbs
      exact EngineUse.Climbs.full htracks hclimbs
  | heard hpoint =>
      rw [hpoint] at hclimbs
      exact climbs_hear _ _ _ hclimbs
  | finishRun hpoint =>
      rw [hpoint] at hclimbs
      exact climbs_finishRun htracks _ _ hclimbs
  | sheetWritten hpoint =>
      rw [hpoint] at hclimbs
      exact climbs_persist hclimbs
  | settingsStamped hpoint =>
      rw [hpoint] at hclimbs
      exact climbs_storeSettings _ _ hclimbs
  | released hpoint =>
      rw [hpoint] at hclimbs
      exact climbs_conclude _ hclimbs
  | measure hpoint | directoryMade hpoint | beforeStart hpoint | started hpoint | heardAll hpoint | stopHearing hpoint
  | awaited hpoint | stopAwaiting hpoint | settingsRead hpoint | settingsPlaceMade hpoint | settingsPlaceRefused hpoint
  | settingsWritten hpoint | removed hpoint | closed hpoint =>
      rw [hpoint] at hclimbs
      exact hclimbs

/-- Every step leaves what is told climbing. -/
theorem Goes.climbs {isCancelled : Bool} {asked : Request} {answer : asked.Answer}
    (h : Goes isCancelled job asked answer job') (htracks : job.tracks.length < 2 ^ 64)
    (hclimbs : job.point.Climbs job.tracks.length job.phase told) :
    job'.point.Climbs job'.tracks.length job'.phase (told ++ asked.announced) := by
  rw [h.keeps.length_tracks]
  by_cases hsilent : asked.announced = []
  · rw [hsilent, List.append_nil]
    exact h.climbs_of_silent hsilent htracks hclimbs
  · cases h with
    | announce hpoint =>
        rw [hpoint] at hclimbs
        exact hclimbs
    | _ => exact (hsilent rfl).elim

theorem Reaches.climbs {first : Job} (h : first.Reaches told job) (hfirst : first.point = .enter .validating)
    (htracks : first.tracks.length < 2 ^ 64) : job.point.Climbs job.tracks.length job.phase told := by
  induction h with
  | refl =>
      rw [hfirst]
      exact Climbs.nil
  | go hreaches hgoes ih =>
      exact hgoes.climbs (by rwa [hreaches.keeps.length_tracks]) ih

end Job

/-! ### What observers are told -/

/-- What is told of how far a job is. -/
structure Advances (told : List Event) : Prop where
  /-- Until the job ends it does not go back. -/
  ordered : (told.filter fun event => !event.phase.isTerminal).Pairwise fun event later =>
    event.percent ≤ later.percent
  within : ∀ event ∈ told, event.phase.isTerminal = false → 0 ≤ event.percent ∧ event.percent ≤ 100
  analyzing : ∀ event ∈ told, event.phase = .analyzing → 0 ≤ event.percent ∧ event.percent ≤ 20
  rendering : ∀ event ∈ told, event.phase = .rendering → 20 ≤ event.percent ∧ event.percent ≤ 100
  complete : ∀ event ∈ told, event.phase = .complete → event.percent = 100
  remaining : ∀ event ∈ told, ∀ seconds, event.remaining = some seconds → 0 ≤ seconds

variable {told : List Event} {event : Event}

theorem Event.IsOngoing.share (h : event.IsOngoing) :
    Float.ofNat event.phase.least ≤ event.percent ∧ event.percent ≤ Float.ofNat event.phase.most := by
  refine h.isBetween.le ?_ ?_
  · cases event.phase <;> decide
  · cases event.phase <;> decide

theorem Climbs.advances {bound : Int} (h : Climbs bound told) : Advances told where
  ordered := by
    have hall : told.filter (fun event => !event.phase.isTerminal) = told := by
      refine List.filter_eq_self.mpr fun event hevent => ?_
      rw [(h.ongoing event hevent).going]
      rfl
    rw [hall]
    refine h.ordered.imp_of_mem ?_
    intro event later hevent hlater hle
    exact (le_iff_units (h.ongoing event hevent).isBetween.isFinite (h.ongoing later hlater).isBetween.isFinite).mpr hle
  within := by
    intro event hevent _
    refine ((h.ongoing event hevent).isBetween.mono (Nat.zero_le _) ?_).le (by decide) (by decide)
    cases event.phase <;> decide
  analyzing := by
    intro event hevent hphase
    have hshare := (h.ongoing event hevent).share
    rw [hphase] at hshare
    exact hshare
  rendering := by
    intro event hevent hphase
    have hshare := (h.ongoing event hevent).share
    rw [hphase] at hshare
    exact hshare
  complete := by
    intro event hevent hphase
    have hgoing := (h.ongoing event hevent).going
    rw [hphase] at hgoing
    cases hgoing
  remaining := fun event hevent => (h.ongoing event hevent).remaining

theorem Advances.init (h : Advances (told ++ [event])) : Advances told := by
  have hmem : ∀ other ∈ told, other ∈ told ++ [event] := fun other hother => List.mem_append_left _ hother
  have hordered := h.ordered
  rw [List.filter_append] at hordered
  exact ⟨(List.pairwise_append.mp hordered).1, fun other hother => h.within other (hmem other hother),
    fun other hother => h.analyzing other (hmem other hother),
    fun other hother => h.rendering other (hmem other hother),
    fun other hother => h.complete other (hmem other hother),
    fun other hother => h.remaining other (hmem other hother)⟩

theorem Closes.advances (h : Closes told) : Advances told := by
  obtain ⟨before, last, rfl, hclimbs, hended, hcomplete, hsilent⟩ := h
  have hbefore := hclimbs.advances
  have hcases : ∀ event ∈ before ++ [last], event ∈ before ∨ event = last := fun event hevent =>
    (List.mem_append.mp hevent).imp_right List.mem_singleton.mp
  have hphase : ∀ phase : Phase, phase.isTerminal = false → last.phase ≠ phase := by
    rintro phase hgoing rfl
    rw [hended] at hgoing
    cases hgoing
  constructor
  case ordered =>
    rw [List.filter_append, List.filter_cons_of_neg (by simp [hended]), List.filter_nil, List.append_nil]
    exact hbefore.ordered
  case within =>
    intro event hevent hgoing
    rcases hcases event hevent with hmem | rfl
    · exact hbefore.within event hmem hgoing
    · exact (hphase _ hgoing rfl).elim
  case analyzing =>
    intro event hevent hanalyzing
    rcases hcases event hevent with hmem | rfl
    · exact hbefore.analyzing event hmem hanalyzing
    · exact (hphase .analyzing rfl hanalyzing).elim
  case rendering =>
    intro event hevent hrendering
    rcases hcases event hevent with hmem | rfl
    · exact hbefore.rendering event hmem hrendering
    · exact (hphase .rendering rfl hrendering).elim
  case complete =>
    intro event hevent hend
    rcases hcases event hevent with hmem | rfl
    · exact hbefore.complete event hmem hend
    · exact hcomplete hend
  case remaining =>
    intro event hevent seconds hseconds
    rcases hcases event hevent with hmem | rfl
    · exact hbefore.remaining event hmem seconds hseconds
    · rw [hsilent] at hseconds
      cases hseconds

theorem EngineUse.Climbs.advances {tracks : Nat} {now : Phase} {use : EngineUse} (h : use.Climbs tracks now told) :
    Advances told := by
  cases use with
  | measuring index heard => exact h.2.2.advances
  | encoding arguments duration reached => exact h.2.2.advances

/-- Wherever a job is, what has been told of it advances. -/
theorem Point.Climbs.advances {tracks : Nat} {now : Phase} {point : Point} (h : point.Climbs tracks now told) :
    Advances told := by
  induction point generalizing told with
  | announce event next ih => exact (ih h).init
  | beforeMeasuring | afterMeasuring | makeDirectory | engine => exact EngineUse.Climbs.advances h
  | close | ended => exact Closes.advances h
  | _ => exact Segue.Climbs.advances h

namespace Service

/-- **How far a job is told to be.** Whatever else the service is asked for, whatever its engine
says and in whatever pieces it is heard, what is told of a job advances. The tracks are counted in a
machine word. -/
theorem advances_of_moves? {initial service started final : Service} {before after : List Move}
    {request : ExportRequest} {id : Nat} (hfresh : initial.IsFresh) (hbefore : initial.moves? before = some service)
    (hstart : service.start request = .ok (id, started)) (hafter : started.moves? after = some final)
    (htracks : request.mix.project.tracks.length < 2 ^ 64) : Advances (final.eventsOf id) := by
  obtain ⟨task, htask', hreaches⟩ := reaches_of_start hfresh hbefore hstart hafter
  exact (hreaches.climbs rfl htracks).advances

def opening : ExportRequest where
  mix :=
    { root := ⟨"set"⟩
      file := ⟨"set/mix.json"⟩
      project :=
        { version := "1.0"
          name := "Opening"
          tracks := [{ position := 0, title := "First", source := ⟨"first.wav"⟩, duration := 120.0 }] } }
  output := ⟨"opening.flac"⟩
  settings := {}

/-- A service with an engine that says where it is, and then names an earlier time. -/
def talkative : Service where
  engine := { binary := "./ffmpeg" }
  files := { entries :=
    [(["ffmpeg"], .file "" true), (["set"], .directory), (["set", "first.wav"], .file "RIFF" false)] }
  scripts :=
    [{ actions := [.say "time=00:01:00.00 speed=2x".toUTF8.toList, .say "time=00:00:30.00".toUTF8.toList] }]

/-- Where the engine says all it has to say before it is heard. -/
def heardLate : List Move :=
  List.replicate 8 (.job 0) ++ [.pass 30.0, .engine 0, .engine 0] ++ List.replicate 9 (.job 0)

theorem advances_of_moves?_talkative :
    ∃ started final, talkative.IsFresh ∧ talkative.moves? [] = some talkative ∧
      talkative.start opening = .ok (0, started) ∧ started.moves? heardLate = some final ∧
      opening.mix.project.tracks.length < 2 ^ 64 ∧ (final.eventsOf 0).map Event.percent = [0, 20, 60, 100] ∧
      (final.eventsOf 0).map Event.remaining = [none, none, some 30, none] ∧ Advances (final.eventsOf 0) := by
  have hfresh : talkative.IsFresh := ⟨rfl, rfl, rfl⟩
  obtain ⟨started, hstart⟩ : ∃ started, talkative.start opening = .ok (0, started) := ⟨_, rfl⟩
  obtain ⟨final, hrun, hpercents, hremaining⟩ : ∃ final ∈ started.moves? heardLate,
      (final.eventsOf 0).map Event.percent = [0, 20, 60, 100] ∧
        (final.eventsOf 0).map Event.remaining = [none, none, some 30, none] := by
    cases hstart
    decide +kernel
  exact ⟨started, final, hfresh, rfl, hstart, hrun, by decide, hpercents, hremaining,
    @advances_of_moves? talkative talkative started final [] heardLate opening 0 hfresh rfl hstart hrun (by decide)⟩

end Service

end Segue
