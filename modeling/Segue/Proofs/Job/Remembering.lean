import Segue.Proofs.Job.Storing
import Segue.Proofs.Job.Targets
import Segue.Proofs.Settings.Stored
import Segue.Settings.Overrides

/-!
The settings that are remembered between exports. Main statement: in every run a file that the jobs
do not render to is changed only by jobs that complete, whether the settings can be kept makes no
difference to a job, and what is loaded at the end are the settings of the last job that could keep
them, beside an engine and a log that have not changed.
-/

namespace Segue

/-- A configuration that is read has a property. -/
def Request.Reads (p : Config → Prop) : (request : Request) → request.Answer → Prop
  | .readSettings _, stored => p (Config.ofStored stored)
  | _, _ => True

/-- What a job at a point is about to store are its settings, beside what a configuration with a
property keeps apart from them. -/
def Point.Carries (p : Config → Prop) (settings : ExportSettings) : Point → Prop
  | .announce _ next => next.Carries p settings
  | .stampSettings _ config => p config
  | .makeSettingsDirectory _ text | .writeSettings _ text =>
    ∃ config time, p config ∧ text = (config.remember settings time).fileText
  | _ => True

theorem Point.carries_of_isPreparing {p : Config → Prop} {settings : ExportSettings} {point : Point}
    (h : point.isPreparing = true) : point.Carries p settings := by
  induction point with
  | announce event next ih => exact ih h
  | stampSettings | makeSettingsDirectory | writeSettings => cases h
  | _ => trivial

namespace Job

variable {p : Config → Prop} {settings : ExportSettings} {job job' : Job} {isCancelled : Bool} {asked : Request}
  {answer : asked.Answer}

theorem carries_persist (job : Job) : job.persist.point.Carries p settings := by
  unfold persist
  split <;> trivial

theorem carries_finishRun (use : EngineUse) (tail : DiagnosticTail) (status : ExitStatus) :
    (job.finishRun use tail status).point.Carries p settings := by
  cases use with
  | measuring index heard =>
      exact Point.carries_of_isPreparing (isPreparing_finishRun_measuring job index heard tail status)
  | encoding =>
      unfold finishRun
      dsimp only
      split
      · trivial
      · split
        · trivial
        · exact carries_persist _

theorem carries_storeSettings {config : Config} (h : p config) (file : Path) (time : String) :
    (job.storeSettings file (config.remember settings time).fileText).point.Carries p settings := by
  unfold storeSettings
  split
  · exact ⟨config, time, h, rfl⟩
  · exact ⟨config, time, h, rfl⟩

theorem Reaches.isOver {told : List Event} (h : job.Reaches told job') (hover : job.point.isOver = true) :
    job'.point.isOver = true := by
  induction h with
  | refl => exact hover
  | go _ hgoes ih => exact hgoes.isOver ih

theorem Goes.point_of_read {file : Path} {stored : Option String}
    (h : Goes isCancelled job (.readSettings file) stored job') : job.point = .readSettings file := by
  cases h with
  | settingsRead hpoint => exact hpoint

theorem Goes.point_of_write {file : Path} {text : String} {written : Unit}
    (h : Goes isCancelled job (.writeSettings file text) written job') : job.point = .writeSettings file text := by
  cases h with
  | settingsWritten hpoint => exact hpoint

theorem Goes.carries (h : Goes isCancelled job asked answer job') (hreads : asked.Reads p answer)
    (hcarries : job.point.Carries p job.request.settings) : job'.point.Carries p job'.request.settings := by
  rw [h.keeps.settings]
  cases h with
  | enter hpoint => exact Point.carries_of_isPreparing (isPreparing_enter job hpoint)
  | announce hpoint | settingsPlaceMade hpoint =>
      rw [hpoint] at hcarries
      exact hcarries
  | checkSource => exact Point.carries_of_isPreparing (isPreparing_checkSources job _ _)
  | measured => exact Point.carries_of_isPreparing (isPreparing_measureFrom _ _)
  | @heard use tail hpoint hcancelled bytes elapsed =>
      obtain ⟨_, _, -, heq | ⟨_, heq⟩⟩ := hear_cases job use tail (Text.decodeLossy bytes) elapsed
      · rw [heq]
        trivial
      · rw [heq]
        trivial
  | finishRun => exact carries_finishRun _ _ _
  | sheetWritten => exact carries_persist job
  | settingsRead => exact hreads
  | settingsStamped hpoint =>
      rw [hpoint] at hcarries
      exact carries_storeSettings hcarries _ _
  | _ => trivial

end Job

namespace Service

variable {initial service after final : Service} {id : Nat} {task : Task} {move : Move} {moves : List Move}
  {path : Path} {p : Config → Prop}

/-- All jobs keep their settings where the service does. -/
structure KeepsIn (path : Path) (service : Service) : Prop where
  file : service.settingsFile = some path
  jobs : ∀ {id : Nat} {task : Task}, service.tasks[id]? = some task → task.job.settingsFile = some path

theorem Moves.keepsIn (h : service.Moves move after) (hspeaks : service.Speaks) (hkeeps : KeepsIn path service) :
    KeepsIn path after where
  file := h.setup_eq.2.trans hkeeps.file
  jobs := by
    refine h.forall_job hspeaks (q := fun _ job => job.settingsFile = some path) hkeeps.jobs (fun _ _ => hkeeps.file) ?_
    intro id task request answer between job htask _ hgoes
    exact hgoes.keeps.settingsFile.trans (hkeeps.jobs htask)

section

variable (hfresh : initial.IsFresh) (hfile : initial.settingsFile = some path)

include hfresh hfile

theorem keepsIn_of_moves? (hrun : initial.moves? moves = some final) : KeepsIn path final := by
  refine (invariant_of_moves? (p := fun service => service.Speaks ∧ KeepsIn path service) ?_
    ⟨hfresh.speaks, hfile, ?_⟩ hrun).2
  · rintro service move after ⟨hspeaks, hkeeps⟩ hmoves
    exact ⟨hmoves.speaks hspeaks, hmoves.keepsIn hspeaks hkeeps⟩
  · intro id task htask
    rw [hfresh.tasks] at htask
    cases htask

/-- A job is busy with no other settings. -/
theorem settingsFile?_eq (hrun : initial.moves? moves = some final) (htask : final.tasks[id]? = some task) {file : Path}
    (hbusy : task.job.point.settingsFile? = some file) : file = path := by
  obtain ⟨request, settingsFile, told, hreaches, -⟩ := reaches_of_fresh hfresh hrun htask
  have hjob := (keepsIn_of_moves? hfresh hfile hrun).jobs htask
  exact Option.some.inj ((hreaches.settingsFile? rfl hbusy).symm.trans hjob)

end

/-! ### What is about to be stored -/

theorem reads_of_answer {request : Request} {answer : request.Answer}
    (h : service.answer id task request = some (answer, after))
    (hloads : ∀ file, request = .readSettings file → p (service.files.loadConfig file)) : request.Reads p answer := by
  cases request with
  | readSettings file =>
      cases h
      exact hloads file rfl
  | _ => trivial

/-- What all jobs are about to store are their settings, beside what a configuration with a property
keeps. -/
def Carry (p : Config → Prop) (service : Service) : Prop :=
  ∀ {id : Nat} {task : Task}, service.tasks[id]? = some task →
    task.job.point.Carries p task.job.request.settings

theorem Moves.carry (h : service.Moves move after) (hspeaks : service.Speaks) (hcarry : Carry p service)
    (hloads : ∀ {id : Nat} {task : Task} {file : Path}, service.tasks[id]? = some task →
      task.job.point.settingsFile? = some file → p (service.files.loadConfig file)) : Carry p after := by
  refine h.forall_job hspeaks (q := fun _ job => job.point.Carries p job.request.settings) hcarry
    (fun _ _ => trivial) ?_
  intro id task request answer between job htask hanswer hgoes
  refine hgoes.carries (reads_of_answer hanswer ?_) (hcarry htask)
  rintro file rfl
  have hbusy : task.job.point.settingsFile? = some file := by
    rw [hgoes.point_of_read]
    rfl
  exact hloads htask hbusy

theorem IsFresh.carry (h : service.IsFresh) : Carry p service := by
  intro id task htask
  rw [h.tasks] at htask
  cases htask

theorem move?_of_saving {file : Path} {text : String} {files : FileTree} (htask : service.tasks[id]? = some task)
    (hpoint : task.job.point = .writeSettings file text) (hwrite : service.files.write file text = .ok files) :
    service.move? (.job id) = some (Service.update { service with files } id fun mover =>
      { mover with job := task.job.complete }) := by
  change service.stepJob? id = _
  rw [stepJob?_of_task htask, Job.next, hpoint]
  change some ((service.withFiles (service.files.write file text)).update id _) = _
  rw [hwrite]
  rfl

/-- Settings that have been written are read back, beside what a configuration keeps. -/
theorem read_of_saves {file : Path} (hcarry : Carry p service) (hsaves : Saves id file service move)
    (hmove : service.move? move = some after) :
    ∃ task config time, service.tasks[id]? = some task ∧ p config ∧
      after.files.read file = .ok (config.remember task.job.request.settings time).fileText := by
  obtain ⟨rfl, task, text, files, htask, hpoint, hwrite⟩ := hsaves
  have hcarries := hcarry htask
  rw [hpoint] at hcarries
  obtain ⟨config, time, hconfig, rfl⟩ := hcarries
  rw [move?_of_saving htask hpoint hwrite] at hmove
  cases hmove
  exact ⟨task, config, time, htask, hconfig, FileTree.read_of_write hwrite⟩

/-- The settings of a job cannot be written to a file: the file is refused, or the directory that it
is to be in. -/
def Refuses (id : Nat) (file : Path) (service : Service) (move : Move) : Prop :=
  (∃ text error, Asks id (.writeSettings file text) service move ∧ service.files.write file text = .error error) ∨
    ∃ error, Asks id (.makeSettingsDirectory (file.parent?.getD ⟨""⟩)) service move ∧
      (service.makeDirectories (file.parent?.getD ⟨""⟩)).1 = .error error

theorem saves_or_refuses {file : Path} (h : Stores id file service move) :
    Saves id file service move ∨ Refuses id file service move := by
  obtain ⟨text, hasks⟩ | hrefused := h
  · cases hwrite : service.files.write file text with
    | error error => exact .inr (.inl ⟨text, error, hasks, hwrite⟩)
    | ok files =>
        obtain ⟨hmove, hrequest⟩ := hasks
        obtain ⟨task, htask, hnext⟩ := Option.bind_eq_some_iff.mp hrequest
        split at hnext
        · cases hnext
        · rename_i hasked
          cases hnext
          have hgoes : Job.Goes false task.job (.writeSettings file text) () _ := Job.goes_of_next hasked () trivial
          exact .inl ⟨hmove, task, text, files, htask, hgoes.point_of_write, hwrite⟩
  · exact .inr (.inr hrefused)

/-- A job that completes has written its settings, or they have been refused. -/
theorem made_saves_or_refuses {output : Path} (hfresh : initial.IsFresh) (hfile : initial.settingsFile = some path)
    (hrun : initial.moves? moves = some final) (hended : final.outcome? id = some (.completed output)) :
    initial.Made moves (Saves id path) ∨ initial.Made moves (Refuses id path) := by
  obtain ⟨task, htask, -⟩ := Option.bind_eq_some_iff.mp hended
  have hstored : task.job.point.isStored = true := by
    rw [outcome?_eq_some hended htask]
    rfl
  obtain ⟨earlier, move, later, between, hmoves, hearlier, hstores⟩ :=
    made_settings hfresh hrun htask hstored ((keepsIn_of_moves? hfresh hfile hrun).jobs htask)
  refine (saves_or_refuses hstores).imp (fun hsaves => ?_) fun hrefuses => ?_
  · exact ⟨earlier, move, later, between, hmoves, hearlier, hsaves⟩
  · exact ⟨earlier, move, later, between, hmoves, hearlier, hrefuses⟩

/-- What is stored at a path is a configuration with a property. -/
def Stored (p : Config → Prop) (path : Path) (service : Service) : Prop :=
  ∃ text config, service.files.read path = .ok text ∧ Config.parse? text = some config ∧ p config

/-- Settings of a job are written to a file, and none are any more behind that. -/
def SavesLast (initial : Service) (moves : List Move) (id : Nat) (path : Path) : Prop :=
  ∃ earlier later between after, moves = earlier ++ .job id :: later ∧ initial.moves? earlier = some between ∧
    Saves id path between (.job id) ∧ between.move? (.job id) = some after ∧
    ∀ other, ¬ after.Made later (Saves other path)

theorem SavesLast.tail (hmove : service.move? move = some after) (h : after.SavesLast moves id path) :
    service.SavesLast (move :: moves) id path := by
  obtain ⟨earlier, later, between, saved, rfl, hearlier, hsaves⟩ := h
  refine ⟨move :: earlier, later, between, saved, rfl, ?_, hsaves⟩
  rw [moves?_cons, hmove]
  exact hearlier

theorem SavesLast.made (h : initial.SavesLast moves id path) : initial.Made moves (Saves id path) := by
  obtain ⟨earlier, later, between, after, hmoves, hearlier, hsaves, -⟩ := h
  exact ⟨earlier, .job id, later, between, hmoves, hearlier, hsaves⟩

section

variable {earlier : List Move} {file : Path} (hfresh : initial.IsFresh)
  (hearlier : initial.moves? earlier = some service)

include hfresh hearlier

/-- Who writes settings behind a job has not been started before it. -/
theorem le_of_saves {other : Nat} (hsaves : Saves id file service move)
    (hmade : service.Made moves (Saves other path)) : id ≤ other := by
  refine Nat.le_of_not_lt fun hlt => ?_
  obtain ⟨-, mover, text, files, hmover, hpoint, -⟩ := hsaves
  have hexclusive := (orderly_of_moves? hfresh hearlier).exclusive (vacates_of_moves? hfresh hearlier)
  have hslot : service.slot = some id := (hexclusive.slot hmover).mpr (by rw [hpoint]; rfl)
  obtain ⟨started, hstarted⟩ : ∃ started, service.tasks[other]? = some started :=
    ⟨_, List.getElem?_eq_getElem (hlt.trans (List.getElem?_eq_some_iff.mp hmover).1)⟩
  -- the slot is not its own, so it is over already
  have hover : started.job.point.isOver = true := by
    refine Bool.of_not_eq_false fun hbusy => ?_
    cases hslot.symm.trans ((hexclusive.slot hstarted).mpr hbusy)
    exact Nat.lt_irrefl _ hlt
  obtain ⟨middle, -, -, between, -, hmiddle, -, saver, text', files', hsaver, hpoint', -⟩ := hmade
  obtain ⟨told, saver', hsaver', hreaches, -⟩ :=
    reaches_of_moves? (speaks_of_moves? hfresh hearlier) hstarted hmiddle
  cases hsaver.symm.trans hsaver'
  have hover' := hreaches.isOver hover
  rw [hpoint'] at hover'
  cases hover'

/-- Where settings are written at all there is a job that writes its own last, and none that has
written settings was started behind it. -/
theorem exists_savesLast (hrun : service.moves? moves = some final) (hsaves : service.Made moves (Saves id path)) :
    ∃ last, id ≤ last ∧ service.SavesLast moves last path := by
  induction moves generalizing service earlier id with
  | nil =>
      obtain ⟨before, move, later, between, hmoves, -⟩ := hsaves
      exact (List.append_ne_nil_of_right_ne_nil before (List.cons_ne_nil move later) hmoves.symm).elim
  | cons move moves ih =>
      rw [moves?_cons] at hrun
      obtain ⟨after, hmove, hrest⟩ := Option.bind_eq_some_iff.mp hrun
      have hafter : initial.moves? (earlier ++ [move]) = some after := by
        rw [moves?_append, hearlier, Option.bind_some, moves?_cons, hmove]
        rfl
      obtain ⟨before, saving, later, between, hmoves, hbefore, hsaves⟩ := hsaves
      cases before with
      | cons first before =>
          cases hmoves
          rw [moves?_cons, hmove] at hbefore
          obtain ⟨last, hle, hlast⟩ := ih hafter hrest ⟨before, saving, later, between, rfl, hbefore, hsaves⟩
          exact ⟨last, hle, hlast.tail hmove⟩
      | nil =>
          cases hmoves
          cases hbefore
          by_cases hmore : ∃ other, after.Made moves (Saves other path)
          · obtain ⟨other, hother⟩ := hmore
            obtain ⟨last, -, hlast⟩ := ih hafter hrest hother
            exact ⟨last, le_of_saves hfresh hearlier hsaves (hlast.tail hmove).made, hlast.tail hmove⟩
          · obtain ⟨rfl, hsaves⟩ := hsaves
            exact ⟨id, Nat.le_refl id, [], moves, service, after, rfl, rfl, ⟨rfl, hsaves⟩, hmove,
              not_exists.mp hmore⟩

end

theorem exists_task_of_savesLast (hfresh : initial.IsFresh) (hrun : initial.moves? moves = some final)
    (hlast : initial.SavesLast moves id path) : ∃ task, final.tasks[id]? = some task := by
  obtain ⟨earlier, later, between, after, hmoves, hearlier, ⟨-, mover, text, files, hmover, -⟩, -⟩ := hlast
  obtain ⟨told, task, htask, -⟩ := reaches_of_middle hfresh hrun hmoves hearlier hmover
  exact ⟨task, htask⟩

theorem Stored.loadConfig (h : Stored p path service) : p (service.files.loadConfig path) := by
  obtain ⟨text, config, hread, hparse, hconfig⟩ := h
  rw [FileTree.loadConfig, hread]
  change p (((some text).bind Config.parse?).getD {})
  rw [Option.bind_some, hparse]
  exact hconfig

theorem isStorable_remember {settings : ExportSettings} (h : settings.IsStorable) (config : Config) (time : String) :
    (config.remember settings time).remembered.IsStorable := ⟨h.bitrate, h.crossfade⟩

/-- Settings that are written in the run are read back. -/
theorem exists_stored_of_saves (hfresh : initial.IsFresh) (hrun : initial.moves? moves = some final)
    (hstorable : ∀ {id : Nat} {task : Task}, final.tasks[id]? = some task →
      initial.Made moves (Saves id path) → task.job.request.settings.IsStorable)
    {earlier later : List Move} {between : Service} (hmoves : moves = earlier ++ move :: later)
    (hearlier : initial.moves? earlier = some between)
    (hmove : between.move? move = some after) (hcarry : Carry p between) (hsaves : Saves id path between move) :
    ∃ task config time, final.tasks[id]? = some task ∧ p config ∧
      after.files.read path = .ok (config.remember task.job.request.settings time).fileText ∧
      task.job.request.settings.IsStorable := by
  obtain ⟨mover, config, time, hmover, hconfig, hread⟩ := read_of_saves hcarry hsaves hmove
  obtain ⟨told, task, htask, hreaches⟩ := reaches_of_middle hfresh hrun hmoves hearlier hmover
  rw [← hreaches.keeps.settings] at hread
  exact ⟨task, config, time, htask, hconfig, hread,
    hstorable htask ⟨earlier, move, later, between, hmoves, hearlier, hsaves⟩⟩

section

variable (hfresh : initial.IsFresh) (hfile : initial.settingsFile = some path)
  (hrun : initial.moves? moves = some final)
  (havoids : ∀ {id : Nat} {task : Task}, final.tasks[id]? = some task → task.job.request.Avoids path)

include hfresh hfile hrun havoids

/-- Each move of the run leaves what is stored alone, or stores the settings of a job. -/
theorem retains_or_saves {earlier later : List Move} {between : Service} (hmoves : moves = earlier ++ move :: later)
    (hearlier : initial.moves? earlier = some between) (hmove : between.move? move = some after) :
    between.files.Retains after.files path ∨ ∃ id, Saves id path between move := by
  have havoids' : ∀ {id : Nat} {mover : Task}, between.tasks[id]? = some mover → move.isOf id = true →
      mover.job.request.Avoids path := by
    intro id mover hmover _
    obtain ⟨told, task, htask, hreaches⟩ := reaches_of_middle hfresh hrun hmoves hearlier hmover
    exact avoids_of_keeps hreaches.keeps (havoids htask)
  refine ((moves_of_move? hmove).retains (aims_of_moves? hfresh hearlier) havoids').imp_right ?_
  rintro ⟨id, file, hsaves⟩
  have hsaves' := hsaves
  obtain ⟨-, mover, text, files, hmover, hpoint, -⟩ := hsaves'
  have hbusy : mover.job.point.settingsFile? = some file := by
    rw [hpoint]
    rfl
  cases settingsFile?_eq hfresh hfile hearlier hmover hbusy
  exact ⟨id, hsaves⟩

variable (hstorable : ∀ {id : Nat} {task : Task}, final.tasks[id]? = some task →
  initial.Made moves (Saves id path) → task.job.request.settings.IsStorable)

include hstorable

/-- A property of the stored configuration that does not depend on the settings is kept. -/
theorem stored_of_moves? (hremember : ∀ {config : Config} (settings : ExportSettings) (time : String),
    p config → p (config.remember settings time)) (hstored : Stored p path initial) : Stored p path final := by
  refine (kept_of_moves? (p := fun service => Carry p service ∧ Stored p path service) ⟨hfresh.carry, hstored⟩ ?_
    hrun).2
  rintro earlier later move between after hmoves hearlier hmove ⟨hcarry, hstored⟩
  refine ⟨(moves_of_move? hmove).carry (speaks_of_moves? hfresh hearlier) hcarry ?_, ?_⟩
  · intro id task file htask hbusy
    rw [settingsFile?_eq hfresh hfile hearlier htask hbusy]
    exact hstored.loadConfig
  · rcases retains_or_saves hfresh hfile hrun havoids hmoves hearlier hmove with hretains | ⟨id, hsaves⟩
    · obtain ⟨text, config, hread, hparse, hconfig⟩ := hstored
      exact ⟨text, config, hretains.read hread, hparse, hconfig⟩
    · obtain ⟨task, config, time, -, hconfig, hread, hsound⟩ :=
        exists_stored_of_saves hfresh hrun hstorable hmoves hearlier hmove hcarry hsaves
      exact ⟨_, _, hread, Config.parse?_fileText (isStorable_remember hsound config time), hremember _ _ hconfig⟩

/-- What is loaded in the end are the settings that have been written last. -/
theorem loadConfig_of_savesLast (htask : final.tasks[id]? = some task) (hlast : initial.SavesLast moves id path) :
    ∃ (config : Config) (time : String),
      final.files.loadConfig path = config.remember task.job.request.settings time := by
  obtain ⟨earlier, later, between, after, hmoves, hearlier, hsaves, hmove, hnone⟩ := hlast
  have hcarry : Carry (fun _ => True) between := by
    refine (invariant_of_moves? (p := fun service => service.Speaks ∧ Carry (fun _ => True) service) ?_
      ⟨hfresh.speaks, hfresh.carry⟩ hearlier).2
    rintro service move after ⟨hspeaks, hcarry⟩ hmoves
    exact ⟨hmoves.speaks hspeaks, hmoves.carry hspeaks hcarry fun _ _ => trivial⟩
  obtain ⟨task', config, time, htask', -, hread, hsound⟩ :=
    exists_stored_of_saves hfresh hrun hstorable hmoves hearlier hmove hcarry hsaves
  cases htask.symm.trans htask'
  refine ⟨config, time, FileTree.loadConfig_of_read ?_ (isStorable_remember hsound config time)⟩
  obtain ⟨after', hmove', hlater⟩ := moves?_middle hrun hmoves hearlier
  cases hmove.symm.trans hmove'
  refine kept_of_moves? (p := fun service => service.files.read path = .ok _) hread ?_ hlater
  intro earlier' later' move' between' after' hmoves' hearlier' hmove' hread'
  have hbetween : initial.moves? (earlier ++ .job id :: earlier') = some between' := by
    rw [moves?_append, hearlier, Option.bind_some, moves?_cons, hmove, Option.bind_some, hearlier']
  have hsplit : moves = (earlier ++ .job id :: earlier') ++ move' :: later' := by
    rw [hmoves, hmoves', List.append_assoc, List.cons_append]
  rcases retains_or_saves hfresh hfile hrun havoids hsplit hbetween hmove' with hretains | ⟨other, hsaves'⟩
  · exact hretains.read hread'
  · exact (hnone other ⟨earlier', move', later', between', hmoves', hearlier', hsaves'⟩).elim

end

/-- **Remembered settings.** In every run of a service that keeps the settings of completed exports
at a path: a job that does not write to that path, and whose steps or engine change the file there,
completes; a job that has come to keep its settings completes and tells just that, whatever becomes
of the files; a job that has completed has written its settings, unless they were refused, and was
not started behind the last job that has; and when no job writes to the path otherwise, and all
settings that are written to it can be read back, what is loaded at the end are those of the last
job that has written them, with a time, and an export for which nothing is given is made by these;
and if a configuration was stored at the start, there is one at the end, with the same engine and
the same log. -/
theorem remembered_of_moves? (hfresh : initial.IsFresh) (hfile : initial.settingsFile = some path)
    (hrun : initial.moves? moves = some final) :
    (∀ id task outcome, final.tasks[id]? = some task → final.outcome? id = some outcome →
      task.job.request.Avoids path → initial.Made moves (Alters id path) →
        outcome = .completed task.job.request.output) ∧
    (∀ id task, final.tasks[id]? = some task → task.job.point.isStoring = true →
      ∀ files, Completes { final with files } id task.job) ∧
    (∀ id output, final.outcome? id = some (.completed output) → initial.Made moves (Refuses id path) ∨
      initial.Made moves (Saves id path) ∧ ∃ last, id ≤ last ∧ initial.SavesLast moves last path) ∧
    ((∀ id task, final.tasks[id]? = some task → task.job.request.Avoids path ∧
        (initial.Made moves (Saves id path) → task.job.request.settings.IsStorable)) →
      (∀ id task, final.tasks[id]? = some task → initial.SavesLast moves id path →
        ∃ time, (final.files.loadConfig path).remembered =
            { task.job.request.settings with lastExported := some time } ∧
          ({} : Overrides).apply (final.files.loadConfig path).remembered =
            .ok { task.job.request.settings with lastExported := some time }) ∧
      ∀ text config, initial.files.read path = .ok text → Config.parse? text = some config →
        ∃ text', final.files.read path = .ok text' ∧ Config.parse? text' = some (final.files.loadConfig path) ∧
          (final.files.loadConfig path).engine = config.engine ∧ (final.files.loadConfig path).log = config.log) := by
  refine ⟨?_, ?_, ?_, fun hall => ⟨?_, ?_⟩⟩
  · intro id task outcome htask hended havoids halters
    have hfate := fate?_of_alters hfresh hrun htask havoids halters
    obtain ⟨request, settingsFile, told, hreaches, -⟩ := reaches_of_fresh hfresh hrun htask
    have hfollows := hreaches.follows rfl
    rw [outcome?_eq_some hended htask] at hfate hfollows
    obtain ⟨before, -, hallows⟩ := hfollows
    cases outcome with
    | completed output => rw [hreaches.keeps.output, hallows.1]
    | failed | cancelled => cases hfate
  · intro id task htask hstoring files
    exact completes_of_isStoring (speaks_of_moves? hfresh hrun) htask hstoring files
  · intro id output hended
    rcases made_saves_or_refuses hfresh hfile hrun hended with hsaves | hrefuses
    · have hnone : initial.moves? [] = some initial := rfl
      exact .inr ⟨hsaves, exists_savesLast hfresh hnone hrun hsaves⟩
    · exact .inl hrefuses
  · intro id task htask hlast
    obtain ⟨config, time, hload⟩ := loadConfig_of_savesLast hfresh hfile hrun (fun h => (hall _ _ h).1)
      (fun h => (hall _ _ h).2) htask hlast
    rw [hload]
    exact ⟨time, rfl, rfl⟩
  · intro text config hread hparse
    have hstored : Stored (fun other => other.engine = config.engine ∧ other.log = config.log) path initial :=
      ⟨text, config, hread, hparse, rfl, rfl⟩
    obtain ⟨text', config', hread', hparse', hengine, hlog⟩ :=
      stored_of_moves? hfresh hfile hrun (fun h => (hall _ _ h).1) (fun h => (hall _ _ h).2) (fun _ _ h => h) hstored
    have hload : final.files.loadConfig path = config' := by
      rw [FileTree.loadConfig, hread']
      change ((some text').bind Config.parse?).getD {} = config'
      rw [Option.bind_some, hparse']
      rfl
    rw [hload]
    exact ⟨text', hread', hparse', hengine, hlog⟩

/-- Whether a job is about to write its settings to a file, and can. -/
def canSave (service : Service) (id : Nat) (file : Path) : Bool :=
  (service.tasks[id]?).any fun task =>
    match task.job.point with
    | .writeSettings place text => decide (place = file) && (service.files.write file text).isOk
    | _ => false

theorem saves_of_canSave {file : Path} (h : service.canSave id file = true) : Saves id file service (.job id) := by
  obtain ⟨task, htask, hsave⟩ := Option.any_eq_true _ _ |>.mp h
  split at hsave
  · rename_i place text hpoint
    obtain ⟨hplace, hwrite⟩ := Bool.and_eq_true_iff.mp hsave
    cases of_decide_eq_true hplace
    cases hfiles : service.files.write file text with
    | ok files => exact ⟨rfl, task, text, files, htask, hpoint, hfiles⟩
    | error error =>
        rw [hfiles] at hwrite
        cases hwrite
  · cases hsave

/-- A mix of one track, which is to be small. -/
def compressed : ExportRequest where
  mix :=
    { root := ⟨"set"⟩
      file := ⟨"set/mix.json"⟩
      project :=
        { version := "1.0"
          name := "Overture"
          tracks := [{ position := 0, title := "First", source := ⟨"first.wav"⟩, duration := 120.0 }] } }
  output := ⟨"overture.mp3"⟩
  settings := { format := .mp3, bitrate := 192 }

/-- A service with an engine, with a track and with stored settings. -/
def stocked : Service where
  engine := { binary := "./ffmpeg" }
  settingsFile := some ⟨"config.json"⟩
  files :=
    { entries :=
        [(["config.json"], .file ({ engine := "./ffmpeg" } : Config).fileText false), (["ffmpeg"], .file "" true),
          (["set"], .directory), (["set", "first.wav"], .file "RIFF" false)] }
  date := "now"

def exported (count : Nat) : List Move := .start compressed :: List.replicate count (.job 0)

theorem isFresh_stocked : stocked.IsFresh := ⟨rfl, rfl, rfl⟩

/-- The job that has been started is the one of the request. -/
theorem request_of_exported {count : Nat} (hrun : stocked.moves? (exported count) = some final)
    (htask : final.tasks[0]? = some task) :
    task.job.request.settings = compressed.settings ∧ task.job.request.output = compressed.output := by
  obtain ⟨started, hstart, hrest⟩ : ∃ started, stocked.moves? [.start compressed] = some started ∧
      started.moves? (List.replicate count (.job 0)) = some final := by
    have hboth : stocked.moves? ([.start compressed] ++ List.replicate count (.job 0)) = some final := hrun
    rw [moves?_append] at hboth
    exact Option.bind_eq_some_iff.mp hboth
  obtain ⟨first, hfirst, hrequest⟩ : ∃ first, started.tasks[0]? = some first ∧ first.job.request = compressed := by
    cases hstart
    exact ⟨_, rfl, rfl⟩
  obtain ⟨told, task', htask', hreaches, -⟩ := reaches_of_moves? (speaks_of_moves? isFresh_stocked hstart) hfirst hrest
  cases htask.symm.trans htask'
  rw [hreaches.keeps.settings, hreaches.keeps.output, hrequest]
  exact ⟨rfl, rfl⟩

theorem remembered_of_moves?_exported :
    ∃ final time, stocked.IsFresh ∧ stocked.settingsFile = some ⟨"config.json"⟩ ∧
      stocked.moves? (exported 20) = some final ∧ final.outcome? 0 = some (.completed compressed.output) ∧
      stocked.SavesLast (exported 20) 0 ⟨"config.json"⟩ ∧
      (final.files.loadConfig ⟨"config.json"⟩).remembered =
        { compressed.settings with lastExported := some time } ∧
      ({} : Overrides).apply (final.files.loadConfig ⟨"config.json"⟩).remembered =
        .ok { compressed.settings with lastExported := some time } ∧
      (final.files.loadConfig ⟨"config.json"⟩).engine = "./ffmpeg" := by
  obtain ⟨final, hrun, hlength, houtcome⟩ : ∃ final ∈ stocked.moves? (exported 20), final.tasks.length = 1 ∧
      final.outcome? 0 = some (.completed compressed.output) := by decide +kernel
  obtain ⟨saving, hsaving, hcan⟩ : ∃ saving ∈ stocked.moves? (exported 16),
      saving.canSave 0 ⟨"config.json"⟩ = true := by decide +kernel
  have honly : ∀ {id : Nat} {task : Task}, final.tasks[id]? = some task → id = 0 := fun htask =>
    Nat.lt_one_iff.mp (hlength ▸ (List.getElem?_eq_some_iff.mp htask).1)
  have hall : ∀ (id : Nat) (task : Task), final.tasks[id]? = some task → task.job.request.Avoids ⟨"config.json"⟩ ∧
      (stocked.Made (exported 20) (Saves id ⟨"config.json"⟩) → task.job.request.settings.IsStorable) := by
    intro id task htask
    cases honly htask
    obtain ⟨hsettings, houtput⟩ := request_of_exported hrun htask
    have havoids : compressed.Avoids ⟨"config.json"⟩ := by decide +kernel
    rw [ExportRequest.Avoids, ExportRequest.targets_congr hsettings houtput, hsettings]
    exact ⟨havoids, fun _ => ⟨by decide, ExportSettings.isStorable_default.crossfade⟩⟩
  obtain ⟨task, htask, hlast⟩ : ∃ task, final.tasks[0]? = some task ∧
      stocked.SavesLast (exported 20) 0 ⟨"config.json"⟩ := by
    have hsaves : stocked.Made (exported 20) (Saves 0 ⟨"config.json"⟩) :=
      ⟨exported 16, .job 0, List.replicate 3 (.job 0), saving, rfl, hsaving, saves_of_canSave hcan⟩
    have hnone : stocked.moves? [] = some stocked := rfl
    obtain ⟨last, -, hlast⟩ := exists_savesLast isFresh_stocked hnone hrun hsaves
    obtain ⟨task, htask⟩ := exists_task_of_savesLast isFresh_stocked hrun hlast
    cases honly htask
    exact ⟨task, htask, hlast⟩
  obtain ⟨-, -, -, hstored⟩ := remembered_of_moves? isFresh_stocked rfl hrun
  obtain ⟨hremembered, hkept⟩ := hstored hall
  obtain ⟨time, hload, happly⟩ := hremembered 0 task htask hlast
  have hparse : Config.parse? ({ engine := "./ffmpeg" } : Config).fileText = some { engine := "./ffmpeg" } :=
    Config.parse?_fileText ExportSettings.isStorable_default
  obtain ⟨_, -, -, hengine, -⟩ := hkept _ _ rfl hparse
  rw [(request_of_exported hrun htask).1] at hload happly
  exact ⟨final, time, isFresh_stocked, rfl, hrun, houtcome, hlast, hload, happly, hengine⟩

end Service

end Segue
