import Segue.Proofs.Job.Runs

/-!
What has happened in a run. Main statement: whatever is true of a job at the end of a run, and is
not true of a job just started, was made true by some move of the run.
-/

namespace Segue

namespace Service

variable {service after : Service} {move : Move} {moves : List Move} {kind : Service → Move → Prop}

/-- A move of some kind was made in a run. -/
def Made (service : Service) (moves : List Move) (kind : Service → Move → Prop) : Prop :=
  ∃ earlier move later between, moves = earlier ++ move :: later ∧ service.moves? earlier = some between ∧
    kind between move

theorem Made.head (h : kind service move) : service.Made (move :: moves) kind :=
  ⟨[], move, moves, service, rfl, rfl, h⟩

theorem Made.tail (hmove : service.move? move = some after) (h : after.Made moves kind) :
    service.Made (move :: moves) kind := by
  obtain ⟨earlier, other, later, between, rfl, hearlier, hkind⟩ := h
  refine ⟨move :: earlier, other, later, between, rfl, ?_, hkind⟩
  rw [moves?_cons, hmove]
  exact hearlier

theorem Made.append (h : service.Made moves kind) (more : List Move) : service.Made (moves ++ more) kind := by
  obtain ⟨earlier, move, later, between, rfl, hearlier, hkind⟩ := h
  exact ⟨earlier, move, later ++ more, between, by rw [List.append_assoc, List.cons_append], hearlier, hkind⟩

/-- What is left of a run, from one of its moves on. -/
theorem moves?_rest {final between : Service} {earlier later : List Move}
    (hrun : service.moves? moves = some final) (hmoves : moves = earlier ++ move :: later)
    (hearlier : service.moves? earlier = some between) : between.moves? (move :: later) = some final := by
  rw [hmoves, moves?_append, hearlier] at hrun
  exact hrun

/-- A move in the middle of a run. -/
theorem moves?_middle {final between : Service} {earlier later : List Move}
    (hrun : service.moves? moves = some final) (hmoves : moves = earlier ++ move :: later)
    (hearlier : service.moves? earlier = some between) :
    ∃ after, between.move? move = some after ∧ after.moves? later = some final := by
  have hrest := moves?_rest hrun hmoves hearlier
  rw [moves?_cons] at hrest
  exact Option.bind_eq_some_iff.mp hrest

/-- What holds at the start of a run, with nothing made yet, and is kept by each move with what was
made before it, holds at the end with all that was made. -/
theorem history_of_moves? {p : List Move → Service → Prop} {final : Service} (hstart : p [] service)
    (hstep : ∀ {earlier : List Move} {move : Move} {between after : Service}, service.moves? earlier = some between →
      p earlier between → between.move? move = some after → p (earlier ++ [move]) after)
    (hrun : service.moves? moves = some final) : p moves final := by
  have hmore : ∀ {moves earlier : List Move} {between : Service}, service.moves? earlier = some between →
      p earlier between → between.moves? moves = some final → p (earlier ++ moves) final := by
    intro moves
    induction moves with
    | nil =>
        intro earlier between _ hbetween hrest
        cases hrest
        rw [List.append_nil]
        exact hbetween
    | cons move moves ih =>
        intro earlier between hearlier hbetween hrest
        rw [moves?_cons] at hrest
        obtain ⟨after, hmove, hrest⟩ := Option.bind_eq_some_iff.mp hrest
        have hmade : service.moves? (earlier ++ [move]) = some after := by
          rw [moves?_append, hearlier, Option.bind_some, moves?_cons, hmove]
          rfl
        have hafter := ih hmade (hstep hearlier hbetween hmove) hrest
        rwa [List.append_assoc] at hafter
  have hnone : service.moves? [] = some service := rfl
  exact hmore hnone hstart hrun

/-- What holds at the start of a run, and is kept by each of its moves, holds at the end. -/
theorem kept_of_moves? {p : Service → Prop} {final : Service} (hstart : p service)
    (hstep : ∀ {earlier later : List Move} {move : Move} {between after : Service}, moves = earlier ++ move :: later →
      service.moves? earlier = some between → between.move? move = some after → p between → p after)
    (hrun : service.moves? moves = some final) : p final := by
  refine history_of_moves? (p := fun earlier between => earlier <+: moves → p between) (fun _ => hstart) ?_ hrun
    (List.prefix_refl moves)
  rintro earlier move between after hearlier hbetween hmove ⟨later, hmoves⟩
  rw [List.append_assoc] at hmoves
  exact hstep hmoves.symm hearlier hmove (hbetween ⟨move :: later, hmoves⟩)

/-- What turns true for a job turns true in a move. -/
theorem made_of_turns {final : Service} {id : Nat} {task' : Task} {p : Task → Prop} (hspeaks : service.Speaks)
    (hnew : ∀ request settingsFile, ¬ p { job := { id, request, settingsFile } })
    (hturn : ∀ {service : Service} {move : Move} {told : List Event} {task task' : Task},
      service.tasks[id]? = some task → service.Evolves move id task told task' → p task' → p task ∨ kind service move)
    (hstart : ∀ task, service.tasks[id]? = some task → ¬ p task) (hrun : service.moves? moves = some final)
    (htask' : final.tasks[id]? = some task') (h : p task') : service.Made moves kind := by
  -- forward along the run: up to each service, nothing has turned true yet
  induction moves generalizing service with
  | nil =>
      cases hrun
      exact (hstart task' htask' h).elim
  | cons move moves ih =>
      rw [moves?_cons] at hrun
      obtain ⟨after, hmove, hrun⟩ := Option.bind_eq_some_iff.mp hrun
      have hmoves := moves_of_move? hmove
      by_cases hkind : kind service move
      · exact .head hkind
      · refine .tail hmove (ih (hmoves.speaks hspeaks) ?_ hrun)
        intro between hbetween hp
        rcases hmoves.task_cases hbetween with ⟨task, htask⟩ | ⟨-, -, request, -, rfl⟩
        · obtain ⟨told, task'', htask'', hevolves, -⟩ := hmoves.evolves hspeaks htask
          cases htask''.symm.trans hbetween
          rcases hturn htask hevolves hp with hbefore | hmade
          · exact hstart task htask hbefore
          · exact hkind hmade
        · exact hnew request _ hp

section

variable {final : Service} {id : Nat} {task' : Task} (hfresh : service.IsFresh)
  (hrun : service.moves? moves = some final) (htask' : final.tasks[id]? = some task')

include hfresh hrun

theorem speaks_of_moves? : final.Speaks :=
  invariant_of_moves? (p := Speaks) (fun _ _ _ hspeaks hmoves => hmoves.speaks hspeaks) hfresh.speaks hrun

/-- A job that is there in the middle of a run is there at its end, some steps further. -/
theorem reaches_of_middle {earlier later : List Move} {between : Service} {task : Task}
    (hmoves : moves = earlier ++ move :: later) (hearlier : service.moves? earlier = some between)
    (htask : between.tasks[id]? = some task) :
    ∃ told task', final.tasks[id]? = some task' ∧ task.job.Reaches told task'.job := by
  obtain ⟨told, task', htask', hreaches, -⟩ :=
    reaches_of_moves? (speaks_of_moves? hfresh hearlier) htask (moves?_rest hrun hmoves hearlier)
  exact ⟨told, task', htask', hreaches⟩

include htask'

theorem made_of_fresh {p : Task → Prop} (hnew : ∀ request settingsFile, ¬ p { job := { id, request, settingsFile } })
    (hturn : ∀ {service : Service} {move : Move} {told : List Event} {task task' : Task},
      service.tasks[id]? = some task → service.Evolves move id task told task' → p task' → p task ∨ kind service move)
    (h : p task') : service.Made moves kind := by
  refine made_of_turns hfresh.speaks hnew hturn ?_ hrun htask' h
  intro task htask
  rw [hfresh.tasks] at htask
  cases htask

/-- What turns true in the steps of a job, and in nothing else. -/
theorem made_of_goes {p : Job → Prop} (hnew : ∀ request settingsFile, ¬ p { id, request, settingsFile })
    (hturn : ∀ {service between : Service} {task : Task} {job' : Job} {request : Request} {answer : request.Answer},
      service.tasks[id]? = some task → Job.Goes task.isCancelled task.job request answer job' →
        service.answer id task request = some (answer, between) → p job' → p task.job ∨ kind service (.job id))
    (h : p task'.job) : service.Made moves kind := by
  refine made_of_fresh (p := fun task => p task.job) hfresh hrun htask' hnew ?_ h
  intro service move told task task' htask hevolves hp
  cases hevolves with
  | rest hface =>
      have hjob : task'.job = task.job := congrArg Prod.fst hface
      rw [hjob] at hp
      exact .inl hp
  | cancel _ _ hjob =>
      rw [hjob] at hp
      exact .inl hp
  | go hmove hgoes _ hanswer =>
      obtain ⟨between, hanswer⟩ := hanswer
      rw [hmove]
      exact hturn htask hgoes hanswer hp

/-- Every job has come to where it is by steps from its start, and what has been told of it was
announced in them. -/
theorem reaches_of_fresh :
    ∃ request settingsFile told, ({ id, request, settingsFile } : Job).Reaches told task'.job ∧
      final.eventsOf id = told := by
  refine (invariant_of_moves? (p := fun service => service.Speaks ∧ ∀ {id : Nat} {task : Task},
    service.tasks[id]? = some task → ∃ request settingsFile told,
      ({ id, request, settingsFile } : Job).Reaches told task.job ∧ service.eventsOf id = told)
    ?_ ⟨hfresh.speaks, ?_⟩ hrun).2 htask'
  · rintro service move after ⟨hspeaks, hreaches⟩ hmoves
    refine ⟨hmoves.speaks hspeaks, ?_⟩
    intro id task' htask'
    rcases hmoves.task_cases htask' with ⟨task, htask⟩ | ⟨rfl, hslot, request, rfl, rfl⟩
    · obtain ⟨request, settingsFile, told, hbefore, htold⟩ := hreaches htask
      obtain ⟨more, task'', htask'', hevolves, hevents⟩ := hmoves.evolves hspeaks htask
      cases htask''.symm.trans htask'
      rw [htold] at hevents
      refine ⟨request, settingsFile, told ++ more, ?_, hevents⟩
      rcases hevolves.job_cases with ⟨hjob, rfl⟩ | ⟨-, request, answer, hgoes, rfl⟩
      · rw [hjob, List.append_nil]
        exact hbefore
      · exact .go hbefore hgoes
    · refine ⟨request, service.settingsFile, [], .refl, ?_⟩
      have hevents : after.events = service.events := by
        cases hmoves <;> rfl
      rw [eventsOf, hevents, List.filter_eq_nil_iff]
      intro event hevent
      have hlt := hspeaks.events event hevent
      simp only [beq_iff_eq]
      omega
  · intro id task htask
    rw [hfresh.tasks] at htask
    cases htask

end

theorem files_of_start {started : Service} {request : ExportRequest} {id : Nat}
    (h : service.start request = .ok (id, started)) : started.files = service.files := by
  obtain ⟨-, -, hmove, -⟩ := start_eq_ok h
  cases moves_of_move? hmove <;> rfl

/-- What holds of a job when it is started, with nothing made yet, and is kept by each move with
what was made before it, holds of the job at the end with all that was made. -/
theorem history_of_start {initial started final : Service} {before : List Move} {request : ExportRequest} {id : Nat}
    {p : List Move → Service → Task → Prop} (hbefore : initial.moves? before = some service)
    (hstart : service.start request = .ok (id, started))
    (hnew : p [] started { job := { id, request, settingsFile := service.settingsFile } })
    (hstep : ∀ {earlier : List Move} {move : Move} {between after : Service} {task : Task},
      started.moves? earlier = some between → initial.moves? (before ++ .start request :: earlier) = some between →
      between.move? move = some after → between.tasks[id]? = some task → p earlier between task →
      ∃ task', after.tasks[id]? = some task' ∧ p (earlier ++ [move]) after task')
    (hmoves : started.moves? moves = some final) : ∃ task, final.tasks[id]? = some task ∧ p moves final task := by
  obtain ⟨-, -, hmove, -, -, htask⟩ := start_eq_ok hstart
  refine history_of_moves? (p := fun earlier between => ∃ task, between.tasks[id]? = some task ∧ p earlier between task)
    ⟨_, htask, hnew⟩ ?_ hmoves
  rintro earlier move between after hearlier ⟨task, htask, hkept⟩ hmove'
  have hreached : initial.moves? (before ++ .start request :: earlier) = some between := by
    rw [moves?_append, hbefore, Option.bind_some, moves?_cons, hmove, Option.bind_some, hearlier]
  exact hstep hearlier hreached hmove' htask hkept

/-- A job that is started has come to where it is by steps from there, and what has been told of it
was announced in them. -/
theorem reaches_of_start {initial started final : Service} {before after : List Move} {request : ExportRequest}
    {id : Nat} (hfresh : initial.IsFresh) (hbefore : initial.moves? before = some service)
    (hstart : service.start request = .ok (id, started)) (hafter : started.moves? after = some final) :
    ∃ task, final.tasks[id]? = some task ∧
      ({ id, request, settingsFile := service.settingsFile } : Job).Reaches (final.eventsOf id) task.job := by
  obtain ⟨-, hid, hmove, -, hevents, htask⟩ := start_eq_ok hstart
  have hspeaks := speaks_of_moves? hfresh hbefore
  have hsilent : started.eventsOf id = [] := by
    rw [eventsOf, hevents, List.filter_eq_nil_iff]
    intro event hevent
    have hlt := hspeaks.events event hevent
    simp only [beq_iff_eq]
    omega
  obtain ⟨told, task, htask', hreaches, htold⟩ :=
    reaches_of_moves? ((moves_of_move? hmove).speaks hspeaks) htask hafter
  rw [hsilent, List.nil_append] at htold
  exact ⟨task, htask', htold ▸ hreaches⟩

end Service

end Segue
