import Segue.Proofs.CommandLine.Sessions
import Segue.Proofs.Job.Sheets
import Segue.Proofs.Project.OutputName

/-!
The two commands that write cue sheets. Main statement: whoever asks for the cue sheet only gets the
one that an export of the same mix writes, at the same place, beside the audio in the project's
directory. A mix that is called by a lone dot has no such place.
-/

namespace Segue.CommandLine

namespace Session

/-- What becomes of a session in which a cue sheet is written, and whether it could be. -/
def writeSheet (session : Session) (sheet : Path) (text : String) : Except String Unit × Session :=
  match session.files.write sheet text with
  | .ok files => (.ok (), { session with files, said := session.said ++ ofLines ["Cue sheet written: " ++ sheet.text] })
  | .error error => (.error (CueSheet.writeFailure sheet error).message, session)

variable {session : Session} {config : Config} {configFile path output : Path} {overrides : Overrides}
  {mix : Mix Float} {settings : ExportSettings} {moves : List Move} {final : Service}

/-- What asking for the cue sheet only comes to. -/
theorem perform_runCue (hload : session.mixAt path = .ok mix)
    (hsettings : overrides.apply config.remembered = .ok settings) :
    session.perform (runCue config path none overrides) =
      session.writeSheet (CueSheet.pathBeside (mix.defaultOutput settings.format)) (mix.cueSheet settings
        (audioNameBeside (CueSheet.pathBeside (mix.defaultOutput settings.format)) settings.format)) := by
  unfold runCue writeSheet
  rw [perform_bind (perform_loadMix hload), perform_bind (perform_settingsFor hsettings), Option.getD_none,
    perform_bind (perform_lift _), run_write]
  cases session.files.write (CueSheet.pathBeside (mix.defaultOutput settings.format)) _ <;> rfl

/-- **Cue sheets.** Take an export for which no output is named and that is to write a cue sheet, in
any run of its service where it completes. Its output is a child of the project's directory and is
never the path of its sheet. That path is a child of the directory as well just when the mix is not
called by a lone dot. Then the export has asked for one sheet, at that path, and whoever asks for
the cue sheet only, in the place where the export began, gets the same text written there. -/
theorem runCue_of_export (hload : session.mixAt path = .ok mix)
    (hsettings : overrides.apply config.remembered = .ok settings) (hsheet : settings.writesCueSheet = true)
    (hrun : (session.service config.engine configFile).moves? (.start (defaultExport mix settings) :: moves) =
      some final)
    (hended : final.outcome? 0 = some (.completed output)) :
    output = mix.defaultOutput settings.format ∧ Path.IsChild mix.root output ∧ CueSheet.pathBeside output ≠ output ∧
      (Path.IsChild mix.root (CueSheet.pathBeside output) ↔ Text.trim mix.project.name ≠ ".") ∧
      (Text.trim mix.project.name ≠ "." → ∃ text,
        (session.service config.engine configFile).Made (.start (defaultExport mix settings) :: moves)
          (Service.Asks 0 (.writeSheet (CueSheet.pathBeside output) text)) ∧
        (∀ sheet' text', (session.service config.engine configFile).Made (.start (defaultExport mix settings) :: moves)
          (Service.Asks 0 (.writeSheet sheet' text')) → sheet' = CueSheet.pathBeside output ∧ text' = text) ∧
        session.perform (runCue config path none overrides) =
          session.writeSheet (CueSheet.pathBeside output) text) := by
  have hunused := isUnused_service session config.engine configFile
  obtain rfl : output = mix.defaultOutput settings.format := Service.output_of_completed hunused hrun hended
  refine ⟨rfl, mix.isChild_defaultOutput _, mix.sheet_ne_defaultOutput _, mix.isChild_sheet_iff _, fun hdot => ?_⟩
  have hplace : (defaultExport mix settings).sheet = CueSheet.pathBeside (mix.defaultOutput settings.format) := rfl
  rw [← hplace]
  refine ⟨(defaultExport mix settings).sheetText, Service.made_sheet_of_completed hunused hrun hended hsheet,
    fun _ _ hmade => Service.sheet_of_asks hunused hmade, ?_⟩
  have hname : audioNameBeside (CueSheet.pathBeside (mix.defaultOutput settings.format)) settings.format =
      (mix.defaultOutput settings.format).fileName?.getD "" := by
    rw [audioNameBeside, mix.fileName?_beside_sheet _ hdot, mix.fileName?_defaultOutput]
  rw [perform_runCue hload hsettings, hname, hplace]
  rfl

/-- The project file of a mix of one track. -/
def singleText (name : String) : String :=
  let track : Json := .object
    [("position", .int 0), ("title", .string "First"), ("source", .string "first.wav"), ("duration_secs", .int 120)]
  Json.pretty (.object [("version", .string "1.0"), ("name", .string name), ("tracks", .array [track])])

/-- A place with an engine that renders some audio, and with such a file. -/
def studio (name : String) : Session where
  files := { entries := [
    (["ffmpeg"], .file "" true),
    (["set"], .directory),
    (["set", "first.wav"], .file "RIFF" false),
    (["set", "project.json"], .file (singleText name) false)] }
  scripts := [{ actions := [.write "AUDIO"] }]

theorem runCue_of_export_dottedName :
    ∃ mix moves final text, (studio "v1.0: Night").mixAt ⟨"set"⟩ = .ok mix ∧
      ((studio "v1.0: Night").service "./ffmpeg" ⟨"config.json"⟩).moves? (.start (defaultExport mix {}) :: moves) =
        some final ∧
      final.outcome? 0 = some (.completed ⟨"set/v1.0__Night.flac"⟩) ∧
      ((studio "v1.0: Night").perform (runExport { engine := "./ffmpeg" } ⟨"config.json"⟩ ⟨"set"⟩ none {})).2.files =
        final.files ∧
      final.files.read ⟨"set/v1.0__Night.cue"⟩ = .ok text ∧
      (studio "v1.0: Night").perform (runCue { engine := "./ffmpeg" } ⟨"set"⟩ none {}) =
        (studio "v1.0: Night").writeSheet ⟨"set/v1.0__Night.cue"⟩ text := by
  obtain ⟨mix, hmix, hname, hcompleted, hread⟩ : ∃ mix ∈ ((studio "v1.0: Night").mixAt ⟨"set"⟩).toOption,
      Text.trim mix.project.name ≠ "." ∧
      ((studio "v1.0: Night").runJob "./ffmpeg" ⟨"config.json"⟩ (defaultExport mix {})).2.1 =
        .completed ⟨"set/v1.0__Night.flac"⟩ ∧
      ((studio "v1.0: Night").runJob "./ffmpeg" ⟨"config.json"⟩ (defaultExport mix {})).2.2.files.read
        ⟨"set/v1.0__Night.cue"⟩ = .ok (defaultExport mix {}).sheetText := by
    decide +kernel
  have hload := toOption_eq_some.mp hmix
  have hsettings : ({} : Overrides).apply ({ engine := "./ffmpeg" } : Config).remembered = .ok {} := rfl
  rcases hjob : (studio "v1.0: Night").runJob "./ffmpeg" ⟨"config.json"⟩ (defaultExport mix {}) with
    ⟨events, outcome, after⟩
  rw [hjob] at hcompleted hread
  obtain rfl : outcome = _ := hcompleted
  obtain ⟨moves, final, hrun, hended, hfiles⟩ := exists_moves_of_runJob hjob
  obtain ⟨-, -, -, -, hsame⟩ := runCue_of_export hload hsettings rfl hrun hended
  have hplace : CueSheet.pathBeside ⟨"set/v1.0__Night.flac"⟩ = ⟨"set/v1.0__Night.cue"⟩ := by decide +kernel
  obtain ⟨text, hmade, -, hcue⟩ := hsame hname
  obtain ⟨-, rfl⟩ := Service.sheet_of_asks (isUnused_service _ _ _) hmade
  rw [hplace] at hcue
  rw [hfiles] at hread
  have hexport := files_runExport hload hsettings hjob
  exact ⟨mix, moves, final, _, hload, hrun, hended, hexport.trans hfiles, hread, hcue⟩

/-- There is no place for the cue sheet of a mix that is called by a lone dot, though its audio is
rendered. -/
theorem noSheet_of_loneDot :
    ∃ mix, (studio ".").mixAt ⟨"set"⟩ = .ok mix ∧
      ((studio ".").runJob "./ffmpeg" ⟨"config.json"⟩ (defaultExport mix {})).2.1 = .completed ⟨"set/..flac"⟩ ∧
      ¬ Path.IsChild mix.root (CueSheet.pathBeside ⟨"set/..flac"⟩) ∧
      ((studio ".").perform (runCue { engine := "./ffmpeg" } ⟨"set"⟩ none {})).1 =
        .error "Cue sheet error: set/..: Is a directory (os error 21)" := by
  obtain ⟨mix, hmix, hname, houtput, hcompleted, hcue⟩ : ∃ mix ∈ ((studio ".").mixAt ⟨"set"⟩).toOption,
      Text.trim mix.project.name = "." ∧ mix.defaultOutput .flac = ⟨"set/..flac"⟩ ∧
      ((studio ".").runJob "./ffmpeg" ⟨"config.json"⟩ (defaultExport mix {})).2.1 = .completed ⟨"set/..flac"⟩ ∧
      ((studio ".").perform (runCue { engine := "./ffmpeg" } ⟨"set"⟩ none {})).1 =
        .error "Cue sheet error: set/..: Is a directory (os error 21)" := by
    decide +kernel
  have hplace := mix.isChild_sheet_iff .flac
  rw [houtput] at hplace
  exact ⟨mix, toOption_eq_some.mp hmix, hcompleted, fun hchild => hplace.mp hchild hname, hcue⟩

end Session

end Segue.CommandLine
