import Segue.Proofs.CommandLine.CueSheets
import Segue.Proofs.Job.Passing
import Segue.Proofs.Project.Reading

/-!
Checking a mix before it is exported. Main statement: when a mix is said to be valid, a job for it
gets to its work, and the tracks that are reported without a source are those that a job for it
names.
-/

namespace Segue.CommandLine

/-- What the line of a track without a source begins with. -/
def missingMark : String := "  - Missing source for track '"

def missingLine (title : String) : String := missingMark ++ title ++ "'"

def missingTitle? (line : String) : Option String :=
  (missingMark.toList.isPrefixOf? line.toList).map fun rest => String.ofList rest.dropLast

theorem missingTitle?_missingLine (title : String) : missingTitle? (missingLine title) = some title := by
  have hrest : missingMark.toList.isPrefixOf? (missingLine title).toList = some (title.toList ++ ['\'']) := by
    rw [List.isPrefixOf?_eq_some_iff_append_eq, missingLine, String.append_assoc, String.toList_append,
      String.toList_append]
    rfl
  rw [missingTitle?, hrest, Option.map_some, List.dropLast_concat, String.ofList_toList]

/-- A line that begins otherwise names none. -/
theorem missingTitle?_eq_none {line : String} (count : Nat)
    (h : missingMark.toList.take count ≠ line.toList.take count) (hcount : count ≤ missingMark.toList.length) :
    missingTitle? line = none := by
  refine Option.map_eq_none_iff.mpr (Option.eq_none_iff_forall_not_mem.mpr fun rest hrest => h ?_)
  rw [← List.isPrefixOf?_eq_some_iff_append_eq.mp hrest, List.take_append_of_le_length hcount]

theorem missingTitle?_append {opening : String} (count : Nat)
    (h : missingMark.toList.take count ≠ opening.toList.take count ∧ count ≤ missingMark.toList.length ∧
      count ≤ opening.toList.length) (rest : String) : missingTitle? (opening ++ rest) = none := by
  refine missingTitle?_eq_none count ?_ h.2.1
  rw [String.toList_append, List.take_append_of_le_length h.2.2]
  exact h.1

theorem missingTitle?_count (count : Nat) (rest : String) : missingTitle? (toString count ++ rest) = none := by
  obtain ⟨digit, digits, hdigits⟩ := List.exists_cons_of_ne_nil (Nat.toDigits_ne_nil (n := count) (b := 10))
  have hdigit : digit.isDigit = true := isDigit_of_mem_toDigits_ten (hdigits ▸ List.mem_cons_self)
  refine missingTitle?_eq_none 1 (fun hsame => ?_) (by decide +kernel)
  rw [String.toList_append, toList_toString, hdigits] at hsame
  cases hsame
  cases hdigit

section

variable (path : Path) (mix : Mix Float) (missing : List String) (engine : String) (isAvailable : Bool)

/-- The problems that stand between a mix and its export, the engine among them. -/
def problems : List String :=
  issues mix missing ++ if isAvailable then [] else ["Encoding engine '" ++ engine ++ "' not found"]

def verdict : String :=
  if (problems mix missing engine isAvailable).isEmpty then "Mix is valid."
  else toString (problems mix missing engine isAvailable).length ++ " issue(s) found. Export will fail."

def validationReport : List String :=
  ("Validating mix at: " ++ path.text) :: validationLines mix missing engine isAvailable

/-- The issues of a mix name the titles of tracks without a source, and no others. -/
theorem filterMap_missingTitle?_issues :
    ((issues mix missing).map fun issue => "  - " ++ issue).filterMap missingTitle? = missing := by
  have htracks : ((if mix.project.tracks.isEmpty then ["Mix has no tracks"] else []).map
      fun issue => "  - " ++ issue).filterMap missingTitle? = [] := by
    split <;> decide +kernel
  have htitles : ((missing.map fun title => "Missing source for track '" ++ title ++ "'").map
      fun issue => "  - " ++ issue).filterMap missingTitle? = missing := by
    rw [List.map_map, List.filterMap_map]
    refine (List.filterMap_congr fun title _ => ?_).trans List.filterMap_some
    have hline : "  - " ++ ("Missing source for track '" ++ title ++ "'") = missingLine title := by
      rw [missingLine, ← String.append_assoc, ← String.append_assoc]
      rfl
    exact (congrArg missingTitle? hline).trans (missingTitle?_missingLine title)
  unfold issues
  rw [List.map_append, List.map_append, List.filterMap_append, List.filterMap_append, htracks, htitles, List.nil_append,
    List.append_right_eq_self, List.filterMap_eq_nil_iff]
  intro line hline
  obtain ⟨issue, hissue, rfl⟩ := List.mem_map.mp hline
  obtain ⟨track, -, hwindow⟩ := List.mem_filterMap.mp hissue
  have hother : ∀ rest, missingTitle? ("  - " ++ "Track '" ++ rest) = none := missingTitle?_append 5 (by decide +kernel)
  dsimp only at hwindow
  split at hwindow
  · cases hwindow
    simp only [String.append_assoc] at hother ⊢
    exact hother _
  · cases hwindow

theorem filterMap_missingTitle?_problems :
    ((problems mix missing engine isAvailable).map fun issue => "  - " ++ issue).filterMap missingTitle? = missing := by
  have hengine : ∀ rest, missingTitle? ("  - " ++ "Encoding engine '" ++ rest) = none :=
    missingTitle?_append 5 (by decide +kernel)
  rw [problems, List.map_append, List.filterMap_append, filterMap_missingTitle?_issues, List.append_right_eq_self]
  cases isAvailable with
  | true => rfl
  | false =>
      simp only [String.append_assoc] at hengine
      simp only [Bool.false_eq_true, if_false, List.map_cons, List.map_nil, String.append_assoc, List.filterMap_cons,
        hengine, List.filterMap_nil]

/-- The report names the titles of tracks without a source, and no others. -/
theorem filterMap_missingTitle?_report :
    (validationReport path mix missing engine isAvailable).filterMap missingTitle? = missing := by
  have hvalidating : ∀ rest, missingTitle? ("Validating mix at: " ++ rest) = none :=
    missingTitle?_append 1 (by decide +kernel)
  have hname : ∀ rest, missingTitle? ("  Name: " ++ rest) = none := missingTitle?_append 3 (by decide +kernel)
  have hversion : ∀ rest, missingTitle? ("  Version: " ++ rest) = none := missingTitle?_append 3 (by decide +kernel)
  have htracks : ∀ rest, missingTitle? ("  Tracks: " ++ rest) = none := missingTitle?_append 3 (by decide +kernel)
  have hengine : (if isAvailable then ["  Engine: " ++ engine ++ " found"] else []).filterMap missingTitle? = [] := by
    have hline : ∀ rest, missingTitle? ("  Engine: " ++ rest) = none := missingTitle?_append 3 (by decide +kernel)
    split
    · rw [String.append_assoc, List.filterMap_cons, hline, List.filterMap_nil]
    · rfl
  have hproblems := filterMap_missingTitle?_problems mix missing engine isAvailable
  have hvalid : ["  Sources: All present", "", "Mix is valid."].filterMap missingTitle? = [] := by decide +kernel
  have hopening : ["", "Validation issues:"].filterMap missingTitle? = [] := by decide +kernel
  have hclosing : ∀ (count : Nat) rest, ["", toString count ++ rest].filterMap missingTitle? = [] := by
    intro count rest
    rw [List.filterMap_cons, (by decide +kernel : missingTitle? "" = none), List.filterMap_cons, missingTitle?_count,
      List.filterMap_nil]
  unfold validationReport validationLines
  dsimp only
  rw [← problems]
  simp only [List.filterMap_cons, List.filterMap_append, hvalidating, hname, hversion, htracks, hengine,
    List.filterMap_nil, List.nil_append]
  split
  · rename_i hnone
    rw [List.isEmpty_iff.mp hnone] at hproblems
    rw [hvalid]
    exact hproblems
  · rw [List.filterMap_append, List.filterMap_append, hproblems, hopening, hclosing]
    exact List.append_nil missing

theorem ofLines_append (lines more : List String) : ofLines (lines ++ more) = ofLines lines ++ ofLines more := by
  rw [ofLines, ofLines, ofLines, List.map_append, String.join_append]

theorem ofLines_singleton (line : String) : ofLines [line] = line ++ "\n" := String.empty_append

theorem exists_report_eq : ∃ front, validationReport path mix missing engine isAvailable =
    front ++ ["", verdict mix missing engine isAvailable] := by
  unfold validationReport validationLines verdict
  dsimp only
  rw [← problems, ← List.cons_append]
  cases (problems mix missing engine isAvailable).isEmpty with
  | true => exact ⟨_, List.append_cons _ "  Sources: All present" _⟩
  | false => exact ⟨_, (List.append_assoc _ _ _).symm⟩

/-- A text that ends with the report of a mix says last that it is valid just when there are no
problems. -/
theorem verdict_suffix_iff (said : String) :
    (ofLines ["", "Mix is valid."]).toList <:+
        (said ++ ofLines (validationReport path mix missing engine isAvailable)).toList ↔
      problems mix missing engine isAvailable = [] := by
  obtain ⟨front, hreport⟩ := exists_report_eq path mix missing engine isAvailable
  rw [hreport, ofLines_append, ← String.append_assoc, String.toList_append, ← List.isEmpty_iff, verdict]
  cases (problems mix missing engine isAvailable).isEmpty with
  | true => exact iff_of_true (List.suffix_append _ _) rfl
  | false =>
      refine iff_of_false (fun hvalid => ?_) Bool.false_ne_true
      have hother : (" issue(s) found. Export will fail.\n").toList <:+
          (ofLines ["", toString (problems mix missing engine isAvailable).length ++
            " issue(s) found. Export will fail."]).toList := by
        rw [← List.singleton_append, ofLines_append, ofLines_singleton (toString _ ++ _), String.append_assoc,
          ← String.append_assoc, String.toList_append]
        exact List.suffix_append _ _
      have hends := List.suffix_of_suffix_length_le hvalid (hother.trans (List.suffix_append _ _)) (by decide +kernel)
      revert hends
      decide +kernel

variable {path mix missing engine isAvailable}

/-- A mix without problems has tracks, and nothing is missing. -/
theorem of_problems_eq_nil (h : problems mix missing engine isAvailable = []) :
    mix.project.tracks ≠ [] ∧ missing = [] ∧ isAvailable = true := by
  obtain ⟨hissues, hengine⟩ := List.append_eq_nil_iff.mp h
  obtain ⟨hissues, -⟩ := List.append_eq_nil_iff.mp hissues
  obtain ⟨htracks, hmissing⟩ := List.append_eq_nil_iff.mp hissues
  refine ⟨fun hnone => ?_, List.map_eq_nil_iff.mp hmissing, ?_⟩
  · rw [hnone] at htracks
    cases htracks
  · cases isAvailable with
    | true => rfl
    | false => cases hengine

end

/-! ### How it is reported -/

namespace Session

variable {session after : Session} {config : Config} {configFile path output : Path} {mix : Mix Float}
  {settings : ExportSettings} {arguments : List String}

/-- Looking through a list changes nothing when looking at each element does not. -/
theorem run_filterM {α : Type} {look : α → StateM Session Bool} {found : α → Bool}
    (h : ∀ x, (look x).run session = (found x, session)) (xs : List α) :
    (xs.filterM look).run session = (xs.filter found, session) := by
  have haux : ∀ kept : List α, (List.filterAuxM look xs kept).run session =
      ((xs.filter found).reverse ++ kept, session) := by
    induction xs with
    | nil => exact fun _ => rfl
    | cons x xs ih =>
        intro kept
        rw [List.filterAuxM, StateT.run_bind, h]
        change (List.filterAuxM look xs (cond (found x) (x :: kept) kept)).run session = _
        rw [ih, List.filter_cons]
        cases found x <;> simp
  rw [List.filterM, StateT.run_bind, haux]
  change (((xs.filter found).reverse ++ []).reverse, session) = _
  rw [List.append_nil, List.reverse_reverse]

theorem run_missingSources (session : Session) (mix : Mix Float) :
    (missingSources mix : StateM Session (List String)).run session = (session.files.missingSources mix, session) := by
  have hlook : ∀ track : Track Float,
      (do return !(← contains (mix.sourcePath track)) : StateM Session Bool).run session =
        (!session.files.contains (mix.sourcePath track), session) := fun _ => rfl
  have hfilter := run_filterM hlook mix.project.tracks
  unfold missingSources
  rw [StateT.run_bind, hfilter]
  rfl

def hasEngineOf (session : Session) (binary : String) : Bool :=
  ({ binary, searchPath := session.searchPath } : Engine).isAvailable session.files

def reportOn (session : Session) (config : Config) (path : Path) (mix : Mix Float) : List String :=
  validationReport path mix (session.files.missingSources mix) config.engine (session.hasEngineOf config.engine)

/-- The session once a mix has been reported on. -/
def reported (session : Session) (config : Config) (path : Path) (mix : Mix Float) : Session :=
  { session with said := session.said ++ ofLines (session.reportOn config path mix) }

theorem perform_runValidate (h : session.mixAt path = .ok mix) :
    session.perform (runValidate config path) = (.ok (), session.reported config path mix) := by
  have hload : ∀ said : String, { session with said }.mixAt path = .ok mix := fun _ => h
  unfold runValidate
  rw [perform_bind (perform_sayLines _), perform_bind (perform_loadMix (hload _)), perform_bind (perform_lift _),
    run_missingSources, perform_bind (perform_lift _), perform_sayLines]
  have hsaid : ∀ lines, session.said ++ ofLines ["Validating mix at: " ++ path.text] ++ ofLines lines =
      session.said ++ ofLines (("Validating mix at: " ++ path.text) :: lines) := fun lines => by
    rw [String.append_assoc, ← ofLines_append, List.singleton_append]
  exact congrArg (fun said => (Except.ok (), { session with said })) (hsaid _)

def configAt (session : Session) (configFile : Path) : Config := session.files.loadConfig configFile

/-- The session once the log file is open, if there is one. -/
def opened (session : Session) (log : LogSettings) : Session := ((openLog log : StateM Session Unit).run session).2

theorem opened_said (session : Session) (log : LogSettings) : (session.opened log).said = session.said := by
  unfold opened openLog
  cases log.file with
  | none => rfl
  | some path =>
      dsimp only
      rw [StateT.run_bind, run_openForAppending]
      cases session.files.openForAppending path <;> rfl

/-- The exit status tells whether a command has failed. -/
theorem run_status (command : ExceptT String (StateM Session) Unit) (session : Session) :
    (do
      match ← command.run with
      | .ok () => return 0
      | .error message => do
        warn ("Error: " ++ message ++ "\n")
        return 1 : StateM Session Nat).run session =
      match session.perform command with
      | (.ok (), after) => (0, after)
      | (.error message, after) => (1, { after with warned := after.warned ++ ("Error: " ++ message ++ "\n") }) := by
  unfold perform
  rw [StateT.run_bind]
  rcases command.run.run session with ⟨_ | _, after⟩ <;> rfl

/-- A command is performed once its configuration has been read and its log file has been opened. -/
theorem perform_of_run {command : Command} (hcommand : Command.ofArguments arguments = .ok command)
    (hrun : (run configFile arguments : StateM Session Nat).run session = (0, after)) :
    (session.opened (session.configAt configFile).log).perform
      (runCommand (session.configAt configFile) configFile command) = (.ok (), after) := by
  unfold run at hrun
  rw [hcommand] at hrun
  have hstatus := (run_status (runCommand (session.configAt configFile) configFile command)
    (session.opened (session.configAt configFile).log)).symm.trans hrun
  split at hstatus
  · rename_i hperform
    cases hstatus
    exact hperform
  · cases hstatus

/-- Whoever checks a mix without an error has loaded it and reported on it. -/
theorem reported_of_run (hcommand : Command.ofArguments arguments = .ok (.validate path))
    (hrun : (run configFile arguments : StateM Session Nat).run session = (0, after)) :
    ∃ (opened : Session) (mix : Mix Float), opened.said = session.said ∧ opened.mixAt path = .ok mix ∧
      after = opened.reported (session.configAt configFile) path mix := by
  have hperform : (session.opened (session.configAt configFile).log).perform
      (runValidate (session.configAt configFile) path) = (.ok (), after) := perform_of_run hcommand hrun
  have hopened := opened_said session (session.configAt configFile).log
  generalize session.opened (session.configAt configFile).log = opened at hperform hopened
  cases hmix : opened.mixAt path with
  | error error =>
      have hsaid : ∀ said, { opened with said }.mixAt path = .error error := fun _ => hmix
      unfold runValidate at hperform
      rw [perform_bind (perform_sayLines _), perform_bind_error (perform_loadMix_error (hsaid _))] at hperform
      cases hperform
  | ok mix =>
      rw [perform_runValidate hmix] at hperform
      cases hperform
      exact ⟨opened, mix, hopened, hmix, rfl⟩

def SaysValid (session : Session) : Prop := (ofLines ["", "Mix is valid."]).toList <:+ session.said.toList

/-- A job goes as it was foretold of its mix: when that is valid, the job passes, and when titles
are missing, it fails by naming them. A list that is kept in memory has no more tracks than a word
can count. -/
structure Foretold (isValid : Prop) (titles : List String) (initial : Service) (request : ExportRequest)
    (started : Service) (id : Nat) (moves : List Move) (final : Service) : Prop where
  passes : isValid → request.mix.project.tracks.length ≤ 2 ^ 64 → Service.Passes request started id moves final
  misses : titles ≠ [] →
    Service.Misses initial.scripts titles (request.mix.project.tracks.length + 8) started id moves final
  found : titles = [] → ∀ others, final.outcome? id ≠ some (.failed (Failure.validation others).message)

/-- **Checking.** Take a mix that is checked without an error. It has been loaded, and a report on
it has been printed. Take a job for this mix with any settings and output, in any run of a service
with the same engine, that is started when the files are those that the check has left. When the mix
was said to be valid, the job passes its first phase unless it is asked to stop, and never fails for
its sources, its engine or its graph. The titles that were reported as missing are those that the
job names, in their order. -/
theorem foretold_of_run (hcommand : Command.ofArguments arguments = .ok (.validate path))
    (hrun : (run configFile arguments : StateM Session Nat).run session = (0, after)) :
    ∃ mix, after.mixAt path = .ok mix ∧
      after.said = session.said ++ ofLines (after.reportOn (session.configAt configFile) path mix) ∧
      ∀ {initial service started final : Service} {before moves : List Move} {settings output id},
        initial.IsUnused → initial.moves? before = some service → service.files = after.files →
        service.engine = { binary := (session.configAt configFile).engine, searchPath := after.searchPath } →
        service.start { mix, output, settings } = .ok (id, started) → started.moves? moves = some final →
        Foretold after.SaysValid
          ((after.reportOn (session.configAt configFile) path mix).filterMap missingTitle?) initial
          { mix, output, settings } started id moves final := by
  obtain ⟨opened, mix, hsaid, hload, rfl⟩ := reported_of_run hcommand hrun
  have hfinite := FileTree.isFinite_of_loadMix hload
  refine ⟨mix, hload, congrArg (fun said => said ++ ofLines _) hsaid, ?_⟩
  intro initial service started final before moves settings output id hunused hbefore hfiles hengine hstart hmoves
  rw [reportOn, filterMap_missingTitle?_report, ← hfiles]
  refine ⟨fun hvalid hword => ?_, fun hsome => ?_, fun hfound _ hended => ?_⟩
  · obtain ⟨htracks, hmissing, havailable⟩ := of_problems_eq_nil ((verdict_suffix_iff _ _ _ _ _ _).mp hvalid)
    have hfound : service.files.missingSources mix = [] := by
      rw [hfiles]
      exact hmissing
    have hthere : service.hasEngine = true := by
      rw [Service.hasEngine, hengine, hfiles]
      exact havailable
    have hrenderable : mix.project.IsRenderable := ⟨htracks, hword, fun _ htrack => hfinite.tempoRate htrack⟩
    exact Service.passes_of_moves? hunused hbefore hstart hfound hmoves hthere hrenderable
  · exact (Service.misses_of_moves? hunused hbefore hstart hsome hmoves :)
  · exact (Service.isExcused_of_failed hunused hbefore hstart hfound hmoves rfl hended :)

/-- A place with a mix of one track, its source and an engine that is found by its name. -/
def equipped : Session := { studio "Night" with searchPath := [⟨"."⟩] }

/-- That place once its mix has been checked. -/
def equippedChecked : Session := ((run ⟨"config.json"⟩ ["validate", "set"] : StateM Session Nat).run equipped).2

theorem foretold_of_run_equipped :
    ∃ mix started final, Command.ofArguments ["validate", "set"] = .ok (.validate ⟨"set"⟩) ∧
      (run ⟨"config.json"⟩ ["validate", "set"] : StateM Session Nat).run equipped = (0, equippedChecked) ∧
      equippedChecked.SaysValid ∧ equippedChecked.mixAt ⟨"set"⟩ = .ok mix ∧ mix.project.tracks.length ≤ 2 ^ 64 ∧
      (equippedChecked.service "ffmpeg" ⟨"config.json"⟩).start { mix, output := ⟨"night.flac"⟩, settings := {} } =
        .ok (0, started) ∧
      started.moves? (List.replicate 5 (.job 0)) = some final ∧
      Service.Passes { mix, output := ⟨"night.flac"⟩, settings := {} } started 0 (List.replicate 5 (.job 0)) final := by
  obtain ⟨hstatus, hsays, mix, hmix, hword, hgoes⟩ :
      ((run ⟨"config.json"⟩ ["validate", "set"] : StateM Session Nat).run equipped).1 = 0 ∧
      (ofLines ["", "Mix is valid."]).toList <:+ equippedChecked.said.toList ∧
      ∃ mix ∈ (equippedChecked.mixAt ⟨"set"⟩).toOption, mix.project.tracks.length ≤ 2 ^ 64 ∧
        (((equippedChecked.service "ffmpeg" ⟨"config.json"⟩).start
          { mix, output := ⟨"night.flac"⟩, settings := {} }).toOption.bind fun (_, started) =>
            started.moves? (List.replicate 5 (.job 0))).isSome = true := by
    decide +kernel
  have hcommand : Command.ofArguments ["validate", "set"] = .ok (.validate ⟨"set"⟩) := rfl
  have hrun : (run ⟨"config.json"⟩ ["validate", "set"] : StateM Session Nat).run equipped = (0, equippedChecked) := by
    refine Prod.ext hstatus ?_
    rw [equippedChecked]
  obtain ⟨started, hstart⟩ : ∃ started, (equippedChecked.service "ffmpeg" ⟨"config.json"⟩).start
      { mix, output := ⟨"night.flac"⟩, settings := {} } = .ok (0, started) := ⟨_, rfl⟩
  rw [hstart] at hgoes
  obtain ⟨final, hmoves⟩ := Option.isSome_iff_exists.mp hgoes
  obtain ⟨mix', hload, -, hforetold⟩ := foretold_of_run hcommand hrun
  have hmix := toOption_eq_some.mp hmix
  obtain rfl : mix = mix' := Except.ok.inj (hmix.symm.trans hload)
  have hengine : (equippedChecked.service "ffmpeg" ⟨"config.json"⟩).engine =
      { binary := (equipped.configAt ⟨"config.json"⟩).engine, searchPath := equippedChecked.searchPath } := by
    decide +kernel
  have hunused := isUnused_service equippedChecked "ffmpeg" ⟨"config.json"⟩
  have hbefore : (equippedChecked.service "ffmpeg" ⟨"config.json"⟩).moves? [] =
      some (equippedChecked.service "ffmpeg" ⟨"config.json"⟩) := rfl
  have hfiles : ∀ session : Session, (session.service "ffmpeg" ⟨"config.json"⟩).files = session.files := fun _ => rfl
  have hpasses := (hforetold hunused hbefore (hfiles _) hengine hstart hmoves).passes hsays hword
  exact ⟨mix, started, final, hcommand, hrun, hsays, hload, hword, hstart, hmoves, hpasses⟩

end Session

end Segue.CommandLine
