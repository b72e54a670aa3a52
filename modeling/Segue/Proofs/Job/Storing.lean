import Segue.Proofs.Job.Stopping

/-!
A job that has come to keep its settings. Main statement: it completes, and tells that and nothing
else, whatever becomes of the files: whether its settings can be read, their directory made and the
file written makes no difference.
-/

namespace Segue

def Point.isStoring : Point → Bool
  | .readSettings _ | .stampSettings _ _ | .makeSettingsDirectory _ _ | .writeSettings _ _ => true
  | _ => false

theorem Point.not_isStoring_of_isCheck {point : Point} (h : point.isCheck = true) : point.isStoring = false := by
  rcases Point.check_cases h with ⟨_, rfl⟩ | ⟨_, rfl⟩ | ⟨_, rfl⟩ | ⟨_, _, rfl⟩ | ⟨_, _, _, rfl⟩ <;> rfl

namespace Job

def completion (job : Job) : Event :=
  ({ job with phase := .complete, percent := 100.0 } : Job).event (some (Outcome.completed job.request.output).message)
    (some job.request.output)

/-- How far a job is that has nothing left but to keep its settings and to complete, with what it
has told since. -/
inductive Finishes (job : Job) : Point → List Event → Prop
  | storing {point : Point} (hstoring : point.isStoring = true) : Finishes job point []
  | release : Finishes job (.release (.completed job.request.output)) []
  | announce : Finishes job (.announce job.completion (.close (.completed job.request.output))) []
  | close : Finishes job (.close (.completed job.request.output)) [job.completion]
  | ended : Finishes job (.ended (.completed job.request.output)) [job.completion]

variable {first job job' : Job} {isCancelled : Bool} {request : Request} {answer : request.Answer} {told : List Event}

theorem Finishes.not_isCheck {point : Point} (h : first.Finishes point told) : point.isCheck = false := by
  cases h with
  | storing hstoring =>
      refine Bool.eq_false_iff.mpr fun hcheck => ?_
      cases hstoring.symm.trans (Point.not_isStoring_of_isCheck hcheck)
  | _ => rfl

theorem Finishes.fate? {point : Point} (h : first.Finishes point told) : point.fate? = some .complete := by
  cases h with
  | storing hstoring =>
      cases point with
      | readSettings | stampSettings | makeSettingsDirectory | writeSettings => rfl
      | _ => cases hstoring
  | _ => rfl

theorem Finishes.told_prefix {point : Point} (h : first.Finishes point told) : told <+: [first.completion] := by
  cases h with
  | storing | release | announce => exact List.nil_prefix
  | close | ended => exact List.prefix_refl _

theorem finishes_complete (hkeeps : first.Keeps job) : first.Finishes job.complete.point [] := by
  change first.Finishes (.release (.completed job.request.output)) []
  rw [hkeeps.output]
  exact .release

theorem completion_of_keeps (hkeeps : first.Keeps job) : job.completion = first.completion := by
  simp only [completion, event, hkeeps.output, hkeeps.id]

theorem finishes_storeSettings (file : Path) (text : String) :
    first.Finishes (job.storeSettings file text).point [] := by
  unfold storeSettings
  split <;> exact .storing rfl

/-- Every step of such a job brings it nearer to its end. -/
theorem Goes.finishes (h : Goes isCancelled job request answer job') (hkeeps : first.Keeps job)
    (hfinishes : first.Finishes job.point told) :
    first.Finishes job'.point (told ++ request.announced) ∧ job'.point.stepsLeft < job.point.stepsLeft := by
  cases h with
  | halt hcheck => cases hfinishes.not_isCheck.symm.trans hcheck
  | settingsRead hpoint | settingsPlaceMade hpoint =>
      rw [hpoint] at hfinishes ⊢
      cases hfinishes
      exact ⟨.storing rfl, Nat.lt_succ_self _⟩
  | settingsStamped hpoint =>
      rw [hpoint] at hfinishes ⊢
      cases hfinishes
      exact ⟨finishes_storeSettings _ _, Nat.lt_succ_of_le (stepsLeft_storeSettings job _ _)⟩
  | settingsPlaceRefused hpoint | settingsWritten hpoint =>
      rw [hpoint] at hfinishes ⊢
      cases hfinishes
      exact ⟨finishes_complete hkeeps, Nat.le_of_ble_eq_true rfl⟩
  | released hpoint =>
      rw [hpoint] at hfinishes ⊢
      cases hfinishes with
      | storing hstoring => cases hstoring
      | release =>
          rw [← hkeeps.output]
          change first.Finishes (.announce job.completion (.close (.completed job.request.output))) [] ∧ _
          rw [completion_of_keeps hkeeps, hkeeps.output]
          exact ⟨.announce, Nat.le_of_ble_eq_true rfl⟩
  | announce hpoint =>
      rw [hpoint] at hfinishes ⊢
      cases hfinishes with
      | storing hstoring => cases hstoring
      | announce => exact ⟨.close, Nat.lt_succ_self _⟩
  | closed hpoint =>
      rw [hpoint] at hfinishes ⊢
      cases hfinishes with
      | storing hstoring => cases hstoring
      | close => exact ⟨.ended, Nat.zero_lt_one⟩
  | _ =>
      rw [‹job.point = _›] at hfinishes
      cases hfinishes with
      | storing hstoring => cases hstoring

theorem Reaches.finishes (h : first.Reaches told job) (hfirst : first.Finishes first.point []) :
    first.Finishes job.point told := by
  induction h with
  | refl => exact hfirst
  | go hreaches hgoes ih => exact (hgoes.finishes hreaches.keeps ih).1

end Job

namespace Service

variable {service : Service} {id : Nat} {task : Task} {first : Job}

/-- A job completes: from now on one event is told of it at most, which is that, it ends in no other
way, and it does end as soon as it is let go on. -/
structure Completes (service : Service) (id : Nat) (job : Job) : Prop where
  told : ∀ {moves : List Move} {final : Service}, service.moves? moves = some final →
    ∃ told, final.eventsOf id = service.eventsOf id ++ told ∧ told <+: [job.completion] ∧
      ∀ outcome, final.outcome? id = some outcome →
        outcome = .completed job.request.output ∧ told = [job.completion]
  ends : ∃ count final, service.moves? (List.replicate count (.job id)) = some final ∧
    final.outcome? id = some (.completed job.request.output)

theorem awaits_of_not_looks {request : Request} (h : request.looks = false) : request.awaits = false := by
  cases request with
  | hearEngine | awaitEngine => cases h
  | _ => rfl

theorem outcome?_of_finishes {told : List Event} {outcome : Outcome} (htask : service.tasks[id]? = some task)
    (hfinishes : first.Finishes task.job.point told) (houtcome : service.outcome? id = some outcome) :
    outcome = .completed first.request.output ∧ told = [first.completion] := by
  rw [outcome?_eq_some houtcome htask] at hfinishes
  cases hfinishes with
  | storing hstoring => cases hstoring
  | ended => exact ⟨rfl, rfl⟩

/-- Nothing that such a job asks for has to wait, so it ends within its steps. -/
theorem ends_of_finishes {steps : Nat} {told : List Event} (htask : service.tasks[id]? = some task)
    (hkeeps : first.Keeps task.job) (hfinishes : first.Finishes task.job.point told)
    (hsteps : task.job.point.stepsLeft < steps) :
    ∃ count final, service.moves? (List.replicate count (.job id)) = some final ∧
      final.outcome? id = some (.completed first.request.output) := by
  induction steps generalizing service task told with
  | zero => omega
  | succ steps ih =>
      cases hended : service.outcome? id with
      | some outcome =>
          obtain ⟨rfl, -⟩ := outcome?_of_finishes htask hfinishes hended
          exact ⟨0, service, rfl, hended⟩
      | none =>
          have hsome : (service.stepJob? id).isSome = true := by
            refine stepJob?_isSome htask (fun hnext => .inr (awaits_of_not_looks ?_)) hended
            exact Job.looks_of_next hnext (by rw [hfinishes.fate?]; rfl)
          obtain ⟨after, hstep⟩ := Option.isSome_iff_exists.mp hsome
          obtain ⟨mover, request, answer, between, job, hmover, hgoes, hanswer, rfl⟩ := stepJob?_eq_some hstep
          cases htask.symm.trans hmover
          obtain ⟨hfinishes', hlt⟩ := hgoes.finishes hkeeps hfinishes
          obtain ⟨task', htask', -⟩ := exists_face_eq (answered_of_answer hanswer).faces htask
          have hafter : (between.update id fun task => { task with job }).tasks[id]? = some { task' with job } := by
            rw [getElem?_update, if_pos rfl, htask', Option.map_some]
          have hfewer : job.point.stepsLeft < steps := Nat.lt_of_lt_of_le hlt (Nat.le_of_lt_succ hsteps)
          obtain ⟨count, final, hrun, houtcome⟩ := ih hafter (hkeeps.trans hgoes.keeps) hfinishes' hfewer
          refine ⟨count + 1, final, ?_, houtcome⟩
          rw [List.replicate_succ, moves?_cons]
          exact Option.bind_eq_some_iff.mpr ⟨_, hstep, hrun⟩

/-- **Keeping the settings.** A job that has come to keep its settings completes, whatever the files
are. -/
theorem completes_of_isStoring (hspeaks : service.Speaks) (htask : service.tasks[id]? = some task)
    (hstoring : task.job.point.isStoring = true) (files : FileTree) :
    Completes { service with files } id task.job where
  told := by
    intro moves final hrun
    have hspeaks' : Speaks { service with files } := ⟨hspeaks.tasks, hspeaks.events⟩
    obtain ⟨told, task', htask', hreaches, hevents⟩ := reaches_of_moves? hspeaks' htask hrun
    have hfinishes := hreaches.finishes (.storing hstoring)
    exact ⟨told, hevents, hfinishes.told_prefix, fun outcome => outcome?_of_finishes htask' hfinishes⟩
  ends := by
    have hkeeps : task.job.Keeps task.job := ⟨rfl, rfl, rfl, rfl, rfl⟩
    exact ends_of_finishes htask hkeeps (.storing hstoring) (Nat.lt_succ_self _)

end Service

end Segue
