import Segue.Proofs.Job.Course
import Segue.Proofs.Job.Stages

/-!
One job and one engine at a time. Main statement: at every moment of every run the slot is with the
one job that has work to do, if there is one, no engine runs but for that job, a start is refused
exactly when the slot is occupied and then makes no difference to anything, and no job is taken out
of the slot but by its own release.
-/

namespace Segue

theorem Point.not_isOver_of_runsEngine {point : Point} (h : point.runsEngine = true) : point.isOver = false := by
  induction point with
  | announce event next ih => exact ih h
  | close | ended => cases h
  | _ => rfl

namespace Service

variable {service after : Service} {id : Nat} {task : Task} {moves : List Move} {move : Move}

/-- The slot is with the job that has work to do, and engines run only for it. -/
structure Exclusive (service : Service) : Prop where
  slot : ∀ {id : Nat} {task : Task}, service.tasks[id]? = some task →
    (service.slot = some id ↔ task.job.point.isOver = false)
  started : ∀ {id : Nat}, service.slot = some id → ∃ task, service.tasks[id]? = some task
  running : ∀ {id : Nat} {task : Task}, service.tasks[id]? = some task → task.run.isSome = true →
    service.slot = some id

/-- Who is over does not occupy the slot, and who occupies it has been started. -/
structure Vacates (service : Service) : Prop where
  gone : ∀ {id : Nat} {task : Task}, service.tasks[id]? = some task → task.job.point.isOver = true →
    service.slot ≠ some id
  started : ∀ {id : Nat}, service.slot = some id → id < service.tasks.length

theorem IsFresh.vacates (h : service.IsFresh) : service.Vacates where
  gone := by
    intro id task htask
    rw [h.tasks] at htask
    cases htask
  started := by
    intro id hslot
    rw [h.slot] at hslot
    cases hslot

theorem isRelease_eq_true {request : Request} (h : request.isRelease = true) : request = .releaseSlot := by
  cases request with
  | releaseSlot => rfl
  | _ => cases h

/-- Nothing takes the slot but a start, and nothing empties it but the release of the job that has
it. -/
theorem Moves.slot_cases (h : service.Moves move after) :
    after.slot = service.slot ∨
      service.slot = none ∧ after.slot = some service.tasks.length ∧ after.tasks.length = service.tasks.length + 1 ∨
      ∃ id, service.slot = some id ∧ after.slot = none ∧ move = .job id ∧
        service.request? id = some .releaseSlot := by
  cases h with
  | start hslot => exact .inr (.inl ⟨hslot, rfl, by simp⟩)
  | @job mover task request answer between job htask hgoes hanswer =>
      have hslot : (between.update mover fun task => { task with job }).slot = _ := (answered_of_answer hanswer).slot
      by_cases hreleases : request.isRelease = true ∧ service.slot = some mover
      · rw [if_pos hreleases] at hslot
        obtain ⟨hrelease, hmine⟩ := hreleases
        cases isRelease_eq_true hrelease
        exact .inr (.inr ⟨mover, hmine, hslot, rfl, request?_of_goes htask hgoes⟩)
      · rw [if_neg hreleases] at hslot
        exact .inl hslot
  | _ => exact .inl rfl

/-- Who gives the slot back does not have it any more. -/
theorem Moves.slot_ne_of_release (h : service.Moves (.job id) after)
    (hrequest : service.request? id = some .releaseSlot) : after.slot ≠ some id := by
  cases h with
  | @job mover task request answer between job htask hgoes hanswer =>
      cases (request?_of_goes htask hgoes).symm.trans hrequest
      have hslot : (between.update id fun task => { task with job }).slot = _ := (answered_of_answer hanswer).slot
      rw [hslot]
      split
      · exact nofun
      · rename_i hother
        exact fun hmine => hother ⟨rfl, hmine⟩

theorem Moves.vacates (h : service.Moves move after) (hspeaks : service.Speaks) (hvacates : service.Vacates) :
    after.Vacates := by
  have hstarted : ∀ {id : Nat}, after.slot = some id → id < after.tasks.length := by
    intro id hslot'
    rcases h.slot_cases with hslot | ⟨-, hslot, hlength⟩ | ⟨_, -, hslot, -⟩
    · exact Nat.lt_of_lt_of_le (hvacates.started (hslot.symm.trans hslot')) h.length_le
    · cases hslot.symm.trans hslot'
      omega
    · cases hslot.symm.trans hslot'
  refine ⟨?_, hstarted⟩
  intro id task' htask' hover hslot'
  rcases h.task_cases htask' with ⟨task, htask⟩ | ⟨-, -, request, -, rfl⟩
  · have hmine : service.slot = some id := by
      rcases h.slot_cases with hslot | ⟨-, hslot, -⟩ | ⟨_, -, hslot, -⟩
      · exact hslot.symm.trans hslot'
      · -- the job that takes the slot is new
        cases hslot.symm.trans hslot'
        cases htask.symm.trans (List.getElem?_eq_none (Nat.le_refl _))
      · cases hslot.symm.trans hslot'
    obtain ⟨told, task'', htask'', hevolves, -⟩ := h.evolves hspeaks htask
    cases htask''.symm.trans htask'
    have hbusy : task.job.point.isOver = false := by
      rw [Bool.eq_false_iff]
      exact fun hdone => hvacates.gone htask hdone hmine
    rcases hevolves.job_cases with ⟨hjob, -⟩ | ⟨rfl, request, answer, hgoes, -⟩
    · rw [hjob, hbusy] at hover
      cases hover
    · rcases hgoes.isOver_turns hover with hdone | hrelease
      · cases hbusy.symm.trans hdone
      · cases isRelease_eq_true hrelease
        exact h.slot_ne_of_release (request?_of_goes htask hgoes) hslot'
  · cases hover

theorem vacates_of_moves? {initial : Service} (hfresh : initial.IsFresh) (hrun : initial.moves? moves = some service) :
    service.Vacates :=
  (invariant_of_moves? (p := fun service => service.Speaks ∧ service.Vacates)
    (fun _ _ _ h hmoves => ⟨hmoves.speaks h.1, hmoves.vacates h.1 h.2⟩) ⟨hfresh.speaks, hfresh.vacates⟩ hrun).2

theorem Orderly.exclusive (horderly : service.Orderly) (hvacates : service.Vacates) : service.Exclusive := by
  have hslot : ∀ {id : Nat} {task : Task}, service.tasks[id]? = some task →
      (service.slot = some id ↔ task.job.point.isOver = false) := by
    intro id task htask
    constructor
    · intro hmine
      rw [Bool.eq_false_iff]
      exact fun hover => hvacates.gone htask hover hmine
    · intro hbusy
      refine (horderly.slot htask).resolve_right fun hover => ?_
      cases hbusy.symm.trans hover
  refine ⟨hslot, ?_, ?_⟩
  · intro id hmine
    exact ⟨_, List.getElem?_eq_getElem (hvacates.started hmine)⟩
  · intro id task htask hrun
    exact (hslot htask).mpr (Point.not_isOver_of_runsEngine (horderly.running htask hrun))

theorem countP_le_one {α : Type} {p : α → Bool} {list : List α}
    (h : ∀ {first second : Nat} {x y : α}, list[first]? = some x → list[second]? = some y → p x = true → p y = true →
      first = second) : list.countP p ≤ 1 := by
  induction list with
  | nil => exact Nat.zero_le 1
  | cons head tail ih =>
      rw [List.countP_cons]
      by_cases hhead : p head = true
      · -- the head is the one, so there is none behind it
        have htail : tail.countP p = 0 := by
          rw [List.countP_eq_zero]
          intro x hx hp
          obtain ⟨place, hplace⟩ := List.mem_iff_getElem?.mp hx
          have hsame := @h 0 (place + 1) head x rfl hplace hhead hp
          omega
        exact Nat.le_of_eq (by rw [htail, if_pos hhead])
      · rw [if_neg hhead]
        refine ih fun hfirst hsecond hx hy => ?_
        have hsame := @h (_ + 1) (_ + 1) _ _ hfirst hsecond hx hy
        omega

/-- Engines run for one job at most. -/
theorem Exclusive.countP_run_le (h : service.Exclusive) :
    service.tasks.countP (fun task => task.run.isSome) ≤ 1 := by
  refine countP_le_one fun hfirst hsecond hx hy => ?_
  exact Option.some.inj ((h.running hfirst hx).symm.trans (h.running hsecond hy))

/-- A start is refused for no other reason than that the slot is occupied. -/
theorem start_eq_error {request : ExportRequest} {failure : Failure} :
    service.start request = .error failure ↔ failure = .alreadyInProgress ∧ service.slot.isSome = true := by
  unfold start
  split
  · rename_i hslot
    rw [Except.error.injEq]
    exact ⟨fun h => ⟨h.symm, hslot⟩, fun h => h.1.symm⟩
  · rename_i hslot
    exact ⟨nofun, fun h => (hslot h.2).elim⟩

/-- A start that is refused could as well not have been tried, whatever comes after it. -/
theorem moves?_of_refused {initial : Service} {request : ExportRequest}
    (hrun : initial.moves? moves = some service) (hslot : service.slot.isSome = true) (later : List Move) :
    initial.moves? (moves ++ .start request :: later) = initial.moves? (moves ++ later) := by
  have hrefused : service.move? (.start request) = some service := by
    rw [move?, start_eq_error.mpr ⟨rfl, hslot⟩]
  rw [moves?_append, moves?_append, hrun, Option.bind_some, Option.bind_some, moves?_cons, hrefused, Option.bind_some]

/-- The engine is started by the job that occupies the slot, when no engine is running. -/
theorem Moves.invocations (h : service.Moves move after) (horderly : service.Orderly)
    (hexclusive : service.Exclusive) (hstarted : after.invocations ≠ service.invocations) :
    ∃ id arguments, move = .job id ∧ service.slot = some id ∧
      after.invocations = service.invocations ++ [(id, arguments)] ∧ ∀ task ∈ service.tasks, task.run = none := by
  cases h with
  | @job mover task request answer between job htask hgoes hanswer =>
      have hinvocations : (between.update mover fun task => { task with job }).invocations = _ :=
        (answered_of_answer hanswer).invocations
      cases hgoes with
      | @started use tail hpoint =>
          have hmine : service.slot = some mover := by
            rw [hexclusive.slot htask, hpoint]
            rfl
          refine ⟨mover, _, rfl, hmine, hinvocations, ?_⟩
          intro other hother
          obtain ⟨id, hid⟩ := List.mem_iff_getElem?.mp hother
          cases hrun : other.run with
          | none => rfl
          | some run =>
              have hsome : other.run.isSome = true := by rw [hrun]; rfl
              cases hmine.symm.trans (hexclusive.running hid hsome)
              cases htask.symm.trans hid
              have hruns := horderly.running htask hsome
              rw [hpoint] at hruns
              cases hruns
      | _ => exact (hstarted (hinvocations.trans (List.append_nil _))).elim
  | _ => exact (hstarted rfl).elim

/-- **One job, one engine.** At every moment of every run, whatever is asked of the service in
between: the slot is with the one job that is not over, and no engine runs but for that job; a start
is refused exactly when the slot is occupied, and makes no difference to anything that comes behind
it; the slot is emptied by nothing but a release of the job that has it, and a job that does not
have it releases nothing; and a further run of the engine begins only for the job in the slot, when
all others are gone. -/
theorem exclusive_of_moves? {initial : Service} (hfresh : initial.IsFresh)
    (hrun : initial.moves? moves = some service) :
    service.Exclusive ∧
    service.tasks.countP (fun task => task.run.isSome) ≤ 1 ∧
    (∀ request failure, service.start request = .error failure ↔
      failure = .alreadyInProgress ∧ service.slot.isSome = true) ∧
    (service.slot.isSome = true → ∀ request later,
      initial.moves? (moves ++ .start request :: later) = initial.moves? (moves ++ later)) ∧
    (∀ id, service.slot ≠ some id → service.release id = service) ∧
    ∀ move after, service.move? move = some after →
      (∀ id, service.slot = some id → after.slot ≠ some id →
        after.slot = none ∧ move = .job id ∧ service.request? id = some .releaseSlot) ∧
      (after.invocations ≠ service.invocations →
        ∃ id arguments, move = .job id ∧ service.slot = some id ∧
          after.invocations = service.invocations ++ [(id, arguments)] ∧ ∀ task ∈ service.tasks, task.run = none) := by
  have horderly := orderly_of_moves? hfresh hrun
  have hexclusive := horderly.exclusive (vacates_of_moves? hfresh hrun)
  refine ⟨hexclusive, hexclusive.countP_run_le, fun _ _ => start_eq_error, fun hslot _ later =>
    moves?_of_refused hrun hslot later, fun id hother => if_neg hother, ?_⟩
  intro move after hmove
  have hmoves := moves_of_move? hmove
  refine ⟨?_, hmoves.invocations horderly hexclusive⟩
  intro id hmine hlost
  rcases hmoves.slot_cases with hslot | ⟨hslot, -⟩ | ⟨other, hslot, hempty, hmove, hrequest⟩
  · exact (hlost (hslot.trans hmine)).elim
  · cases hslot.symm.trans hmine
  · cases hslot.symm.trans hmine
    exact ⟨hempty, hmove, hrequest⟩

/-- Where the engine has been started to render a mix. -/
def engineStarted : List Move := [.start (interlude ⟨"night.flac"⟩)] ++ List.replicate 8 (.job 0)

/-- While an engine runs no other one is started, and no other job. -/
theorem exclusive_of_moves?_engineStarted :
    ∃ service task, equippedToRender.IsFresh ∧ equippedToRender.moves? engineStarted = some service ∧
      service.tasks[0]? = some task ∧ task.run.isSome = true ∧ service.slot = some 0 ∧ service.Exclusive ∧
      service.tasks.countP (fun task => task.run.isSome) ≤ 1 ∧
      service.start (interlude ⟨"dawn.flac"⟩) = .error .alreadyInProgress ∧
      (∀ later, equippedToRender.moves? (engineStarted ++ .start (interlude ⟨"dawn.flac"⟩) :: later) =
        equippedToRender.moves? (engineStarted ++ later)) ∧
      service.release 1 = service ∧
      ∀ move after, service.move? move = some after → after.invocations = service.invocations := by
  obtain ⟨service, hrun, task, htask, hengine, hslot⟩ : ∃ service ∈ equippedToRender.moves? engineStarted,
      ∃ task ∈ service.tasks[0]?, task.run.isSome = true ∧ service.slot = some 0 := by
    decide +kernel
  have hoccupied : service.slot.isSome = true := by rw [hslot]; rfl
  obtain ⟨hexclusive, hcount, hrefused, hsame, hrelease, hmoves⟩ :=
    exclusive_of_moves? isFresh_equippedToRender hrun
  refine ⟨service, task, isFresh_equippedToRender, hrun, htask, hengine, hslot, hexclusive, hcount,
    (hrefused _ _).mpr ⟨rfl, hoccupied⟩, hsame hoccupied _, hrelease 1 (by rw [hslot]; decide), ?_⟩
  intro move after hmove
  refine Decidable.byContradiction fun hstarted => ?_
  obtain ⟨-, -, -, -, -, hnone⟩ := (hmoves move after hmove).2 hstarted
  rw [hnone task (List.mem_of_getElem? htask)] at hengine
  cases hengine

end Service

end Segue
