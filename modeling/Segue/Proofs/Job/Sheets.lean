import Segue.Proofs.Job.Invocations
import Segue.Proofs.Job.Release

/-!
The cue sheets that jobs write. Main statement: a job that completes has asked for its sheet, if it
is to write one, and for no other; and whatever has been measured of its tracks by then, the sheet
is that of the mix as it was given.
-/

namespace Segue

namespace ExportRequest

variable (request : ExportRequest) (found : List (Measurement Float))

def sheet : Path := CueSheet.pathBeside request.output

def sheetText : String := request.mix.cueSheet request.settings (request.output.fileName?.getD "")

/-- What does not look at the loudness of tracks does not notice that they have been measured. -/
theorem map_measuredTracks {β : Type} {look : Track Float → β}
    (hlook : ∀ track loudness, look { track with loudness } = look track) :
    (request.measuredTracks found).map look = request.mix.project.tracks.map look := by
  apply List.ext_getElem?
  intro index
  rw [List.getElem?_map, getElem?_measuredTracks, List.getElem?_map, Option.map_map]
  exact congrArg (fun change => request.mix.project.tracks[index]?.map change) (funext fun track => hlook track _)

theorem transitions_measured (crossfade : Float) :
    (request.measured found).mix.project.transitions crossfade = request.mix.project.transitions crossfade := by
  unfold Project.transitions
  rw [List.map_dropLast, List.map_dropLast]
  exact congrArg List.dropLast (request.map_measuredTracks found fun _ _ => rfl)

theorem startTimes_measured (transitions : List (Transition Float)) :
    (request.measured found).mix.project.startTimes transitions = request.mix.project.startTimes transitions := by
  have hdurations : (request.measuredTracks found).map Track.effectiveDuration =
      request.mix.project.tracks.map Track.effectiveDuration := request.map_measuredTracks found fun _ _ => rfl
  unfold Project.startTimes
  exact congrArg (fun durations => startTimes durations (transitions.map Transition.duration)) hdurations

theorem ofProject_measured (transitions : List (Transition Float)) (file : String) (format : AudioFormat) :
    CueSheet.ofProject (request.measured found).mix.project transitions file format =
      CueSheet.ofProject request.mix.project transitions file format := by
  let entry (track : Track Float) (start : Float) : CueTrack Float :=
    { title := track.title, performer := track.artist
      indexes := start :: (track.markerTimes start).take (maxIndex - 1) }
  have hentries : (request.measuredTracks found).map entry = request.mix.project.tracks.map entry :=
    request.map_measuredTracks found fun _ _ => rfl
  have hmap : ∀ (tracks : List (Track Float)) (starts : List Float),
      ((tracks.zip starts).map fun pair => entry pair.1 pair.2) =
        List.zipWith (fun fill start => fill start) (tracks.map entry) starts := by
    intro tracks starts
    rw [List.zipWith_map_left]
    exact List.map_zip_eq_zipWith
  have htracks :
      (((request.measuredTracks found).zip ((request.measured found).mix.project.startTimes transitions)).map
        fun pair => entry pair.1 pair.2) =
      (request.mix.project.tracks.zip (request.mix.project.startTimes transitions)).map
        fun pair => entry pair.1 pair.2 := by
    rw [startTimes_measured, hmap, hmap, hentries]
  exact congrArg
    (fun tracks => { CueSheet.ofProject request.mix.project transitions file format with tracks }) htracks

/-- The sheet of a mix does not depend on what has been measured of its tracks. -/
theorem cueSheet_measured (settings : ExportSettings) (file : String) :
    (request.measured found).mix.cueSheet settings file = request.mix.cueSheet settings file := by
  unfold Mix.cueSheet
  rw [transitions_measured]
  exact congrArg CueSheet.text (request.ofProject_measured found _ file settings.format)

theorem sheetText_measured : (request.measured found).sheetText = request.sheetText :=
  request.cueSheet_measured found _ _

end ExportRequest

namespace Job

/-- A job asks for no sheet but its own. -/
theorem Goes.sheet {isCancelled : Bool} {job job' : Job} {path : Path} {text : String} {written : Unit}
    (h : Goes isCancelled job (.writeSheet path text) written job') :
    path = job.request.sheet ∧ text = job.request.sheetText := by
  cases h with
  | sheetWritten => exact ⟨rfl, rfl⟩

end Job

namespace Service

variable {initial final : Service} {moves : List Move} {request : ExportRequest} {task : Task} {path output : Path}
  {text : String} (hunused : initial.IsUnused)

include hunused

/-- The first job of a service starts. -/
theorem exists_start (hrun : initial.moves? (.start request :: moves) = some final) :
    ∃ started, initial.start request = .ok (0, started) ∧ started.moves? moves = some final := by
  obtain ⟨started, hstart⟩ : ∃ started, initial.start request = .ok (0, started) := by
    unfold start
    rw [hunused.slot, hunused.tasks]
    exact ⟨_, rfl⟩
  rw [moves?_cons, (start_eq_ok hstart).2.2.1, Option.bind_some] at hrun
  exact ⟨started, hstart, hrun⟩

/-- It is the one of the request, with what has been measured of its tracks. -/
theorem request_of_started (hrun : initial.moves? (.start request :: moves) = some final)
    (htask : final.tasks[0]? = some task) : ∃ found, task.job.request = request.measured found := by
  have hnone : initial.moves? [] = some initial := rfl
  obtain ⟨started, hstart, hbehind⟩ := exists_start hunused hrun
  obtain ⟨task', htask', found, hrequest, -⟩ := pursues_of_moves? hunused hnone hstart hbehind
  cases htask.symm.trans htask'
  exact ⟨found, hrequest⟩

/-- It completes at the output of the request. -/
theorem output_of_completed (hrun : initial.moves? (.start request :: moves) = some final)
    (hended : final.outcome? 0 = some (.completed output)) : output = request.output := by
  have hnone : initial.moves? [] = some initial := rfl
  obtain ⟨started, hstart, hbehind⟩ := exists_start hunused hrun
  obtain ⟨task, htask, hreaches⟩ := reaches_of_start hunused.toIsFresh hnone hstart hbehind
  have hfollows := hreaches.follows rfl
  rw [outcome?_eq_some hended htask] at hfollows
  obtain ⟨before, -, houtput, -⟩ := hfollows
  exact houtput

/-- The sheet that it asks for is that of the request. -/
theorem sheet_of_asks (hmade : initial.Made (.start request :: moves) (Asks 0 (.writeSheet path text))) :
    path = request.sheet ∧ text = request.sheetText := by
  obtain ⟨earlier, move, later, between, hmoves, hearlier, -, hasked⟩ := hmade
  obtain ⟨task, htask, hnext⟩ := Option.bind_eq_some_iff.mp hasked
  cases earlier with
  | nil =>
      cases hearlier
      rw [hunused.tasks] at htask
      cases htask
  | cons first earlier =>
      obtain ⟨rfl, -⟩ := List.cons.inj hmoves
      obtain ⟨found, hrequest⟩ := request_of_started hunused hearlier htask
      split at hnext
      · cases hnext
      · rename_i hasks
        cases hnext
        have hgoes : Job.Goes false task.job (.writeSheet path text) () _ := Job.goes_of_next hasks () trivial
        obtain ⟨hpath, htext⟩ := hgoes.sheet
        rw [hrequest] at hpath htext
        exact ⟨hpath, htext.trans (request.sheetText_measured found)⟩

/-- **Sheets.** A job that completes has asked for the sheet of its request. -/
theorem made_sheet_of_completed (hrun : initial.moves? (.start request :: moves) = some final)
    (hended : final.outcome? 0 = some (.completed output)) (hsheet : request.settings.writesCueSheet = true) :
    initial.Made (.start request :: moves) (Asks 0 (.writeSheet request.sheet request.sheetText)) := by
  obtain ⟨task, htask, -⟩ := Option.bind_eq_some_iff.mp hended
  obtain ⟨found, hrequest⟩ := request_of_started hunused hrun htask
  have hfiled : task.job.point.isFiled = true := by
    rw [outcome?_eq_some hended htask]
    rfl
  have hmade := made_sheet hunused.toIsFresh hrun htask hfiled (by rw [hrequest]; exact hsheet)
  have htext : task.job.sheetText = request.sheetText := by
    rw [Job.sheetText, hrequest]
    exact request.sheetText_measured found
  rw [htext, hrequest] at hmade
  exact hmade

end Service

end Segue
