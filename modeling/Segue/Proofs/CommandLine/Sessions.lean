import Segue.CommandLine.Run
import Segue.Proofs.Job.Invocations

/-!
What commands come to in a session. Main statement: an export that completes is a run of the
session's service, and leaves the files of that run.
-/

namespace Segue

namespace Service

variable {service after : Service} {holding : Bool}

theorem exists_move_of_advance? (h : service.advance? holding = some after) :
    ∃ move, service.move? move = some after := by
  unfold advance? at h
  split at h
  · rename_i next hnext
    cases h
    obtain ⟨id, -, hstep⟩ := List.exists_of_findSome?_eq_some hnext
    obtain ⟨request, -, hstep⟩ := Option.bind_eq_some_iff.mp hstep
    split at hstep
    · cases hstep
    · exact ⟨.job id, hstep⟩
  · obtain ⟨id, -, hstep⟩ := List.exists_of_findSome?_eq_some h
    exact ⟨.engine id, hstep⟩

/-- What moves on until something holds is a run. -/
theorem exists_moves_of_runUpTo (stop : Service → Bool) (count : Nat) (service : Service) :
    ∃ moves, service.moves? moves = some (service.runUpTo holding stop count) := by
  induction count generalizing service with
  | zero => exact ⟨[], rfl⟩
  | succ count ih =>
      unfold runUpTo
      split
      · exact ⟨[], rfl⟩
      · split
        · rename_i after hadvance
          obtain ⟨move, hmove⟩ := exists_move_of_advance? hadvance
          obtain ⟨moves, hmoves⟩ := ih after
          exact ⟨move :: moves, by rw [moves?_cons, hmove, Option.bind_some, hmoves]⟩
        · exact ⟨[], rfl⟩

end Service

namespace CommandLine

/-- The export that is made of a mix when no output is named. -/
def defaultExport (mix : Mix Float) (settings : ExportSettings) : ExportRequest where
  mix := mix
  output := mix.defaultOutput settings.format
  settings := settings

namespace Session

/-- The mix that a path leads to, which is that of a project file or of the directory that it is in. -/
def mixAt (session : Session) (path : Path) : Except ProjectError (Mix Float) :=
  session.files.loadMix (if session.files.isDirectory path then path.join Mix.fileName else path)

def perform {α : Type} (session : Session) (command : ExceptT String (StateM Session) α) : Except String α × Session :=
  command.run.run session

variable {α β : Type} {session after : Session} {config : Config} {configFile path output : Path} {binary : String}
  {overrides : Overrides} {mix : Mix Float} {settings : ExportSettings} {request : ExportRequest}
  {events : List Event} {outcome : Outcome}

theorem perform_bind {command : ExceptT String (StateM Session) α} {result : α}
    (h : session.perform command = (.ok result, after)) (next : α → ExceptT String (StateM Session) β) :
    session.perform (command >>= next) = after.perform (next result) := by
  unfold perform at h ⊢
  rw [ExceptT.run_bind, StateT.run_bind, h]
  rfl

theorem perform_bind_error {command : ExceptT String (StateM Session) α} {message : String}
    (h : session.perform command = (.error message, after)) (next : α → ExceptT String (StateM Session) β) :
    session.perform (command >>= next) = (.error message, after) := by
  unfold perform at h ⊢
  rw [ExceptT.run_bind, StateT.run_bind, h]
  rfl

theorem perform_lift (command : StateM Session α) :
    session.perform (liftM command) = (.ok (command.run session).1, (command.run session).2) := rfl

theorem perform_sayLines (lines : List String) :
    session.perform (sayLines lines) = (.ok (), { session with said := session.said ++ ofLines lines }) := rfl

theorem perform_settingsFor (h : overrides.apply config.remembered = .ok settings) :
    session.perform (settingsFor config overrides) = (.ok settings, session) := by
  unfold settingsFor
  rw [h]
  rfl

/-- Loading a mix does nothing else. -/
theorem perform_loadMix_eq (session : Session) (path : Path) :
    session.perform (loadMix path) =
      ((session.mixAt path).mapError fun error => "Failed to load project: " ++ error.message, session) := by
  have hlook : (isDirectory path : StateM Session Bool).run session = (session.files.isDirectory path, session) := rfl
  have hread : ∀ file, (read file : StateM Session (Except FileError String)).run session =
      (session.files.read file, session) := fun _ => rfl
  unfold mixAt FileTree.loadMix loadMix
  rw [perform_bind (perform_lift _), hlook, perform_bind (perform_lift _), hread]
  cases Mix.ofRead _ (session.files.read _) <;> rfl

theorem perform_loadMix (h : session.mixAt path = .ok mix) : session.perform (loadMix path) = (.ok mix, session) := by
  rw [perform_loadMix_eq, h]
  rfl

/-- A mix that cannot be loaded is an error of the command. -/
theorem perform_loadMix_error {error : ProjectError} (h : session.mixAt path = .error error) :
    session.perform (loadMix path) = (.error ("Failed to load project: " ++ error.message), session) := by
  rw [perform_loadMix_eq, h]
  rfl

theorem run_change (session : Session) (result : Except FileError FileTree) :
    (Session.change result).run session =
      match result with
      | .ok files => (.ok (), { session with files })
      | .error error => (.error error, session) := by
  cases result <;> rfl

theorem run_write (session : Session) (file : Path) (text : String) :
    (write file text : StateM Session (Except FileError Unit)).run session =
      match session.files.write file text with
      | .ok files => (.ok (), { session with files })
      | .error error => (.error error, session) := run_change session _

theorem run_openForAppending (session : Session) (file : Path) :
    (openForAppending file : StateM Session (Except FileError Unit)).run session =
      match session.files.openForAppending file with
      | .ok files => (.ok (), { session with files })
      | .error error => (.error error, session) := run_change session _

/-- Reporting on a job changes only what has been said. -/
theorem run_forM_say (text : Event → String) (events : List Event) (session : Session) :
    ∃ said, (events.forM fun event => say (text event) : StateM Session Unit).run session =
      ((), { session with said }) := by
  induction events generalizing session with
  | nil => exact ⟨session.said, rfl⟩
  | cons event events ih =>
      obtain ⟨said, hrest⟩ := ih { session with said := session.said ++ text event }
      exact ⟨said, hrest⟩

/-- A job that is reported on is that job. -/
theorem run_render (h : session.runJob binary configFile request = (events, outcome, after)) (text : Event → String) :
    ∃ said, (render binary configFile request fun event => say (text event) : StateM Session Outcome).run session =
      (outcome, { after with said }) := by
  obtain ⟨said, hreports⟩ := run_forM_say text events after
  refine ⟨said, ?_⟩
  change ((session.runJob binary configFile request).2.1,
    (((session.runJob binary configFile request).1.forM fun event => say (text event) : StateM Session Unit).run
      (session.runJob binary configFile request).2.2).2) = _
  rw [h]
  change (outcome, ((events.forM fun event => say (text event) : StateM Session Unit).run after).2) = _
  rw [hreports]

/-- What has been said does not change what jobs do. -/
theorem runJob_said (h : session.runJob binary configFile request = (events, outcome, after)) (said : String) :
    { session with said }.runJob binary configFile request = (events, outcome, { after with said }) := by
  change ((session.runJob binary configFile request).1, (session.runJob binary configFile request).2.1,
    { (session.runJob binary configFile request).2.2 with said }) = _
  rw [h]

theorem isUnused_service (session : Session) (binary : String) (configFile : Path) :
    (session.service binary configFile).IsUnused :=
  ⟨⟨rfl, rfl, rfl⟩, rfl⟩

/-- The export of a session that completes is a run of its service. -/
theorem exists_moves_of_runJob (h : session.runJob binary configFile request = (events, .completed output, after)) :
    ∃ moves final, (session.service binary configFile).moves? (.start request :: moves) = some final ∧
      final.outcome? 0 = some (.completed output) ∧ after.files = final.files := by
  obtain ⟨started, hstart⟩ : ∃ started, (session.service binary configFile).start request = .ok (0, started) :=
    ⟨_, rfl⟩
  obtain ⟨moves, hmoves⟩ : ∃ moves, started.moves? moves = some (started.finish 0) :=
    Service.exists_moves_of_runUpTo _ started.moveCount started
  unfold runJob at h
  rw [hstart] at h
  obtain ⟨-, houtcome, rfl⟩ : _ ∧ _ ∧ _ := by simpa only [Prod.mk.injEq] using h
  refine ⟨moves, started.finish 0, ?_, ?_, rfl⟩
  · rw [Service.moves?_cons, (Service.start_eq_ok hstart).2.2.1]
    exact hmoves
  · cases hended : (started.finish 0).outcome? 0 with
    | none =>
        rw [hended] at houtcome
        cases houtcome
    | some outcome =>
        rw [hended] at houtcome
        exact congrArg some houtcome

/-- What an export leaves is what its job leaves. -/
theorem files_runExport (hload : session.mixAt path = .ok mix)
    (hsettings : overrides.apply config.remembered = .ok settings)
    (hjob : session.runJob config.engine configFile (defaultExport mix settings) = (events, outcome, after)) :
    (session.perform (runExport config configFile path none overrides)).2.files = after.files := by
  have hload' : ∀ said : String, { session with said }.mixAt path = .ok mix := fun _ => hload
  obtain ⟨said, hrender⟩ := run_render (runJob_said hjob _) progressText
  unfold runExport
  rw [perform_bind (perform_sayLines _), perform_bind (perform_loadMix (hload' _)),
    perform_bind (perform_settingsFor hsettings), perform_bind (perform_sayLines _), perform_bind (perform_lift _)]
  rw [defaultExport] at hrender
  rw [Option.getD_none, hrender]
  cases outcome <;> rfl

end Session

end CommandLine

end Segue
