import Segue.Job.Basic
import Segue.Proofs.Mixing.Normalization

/-!
An export whose first tracks have been measured. Main statement: once they all have been, each chain
of its plan normalizes its track by what was measured of that, and when tracks are not to be
normalized no chain does.
-/

namespace Segue

namespace ExportRequest

variable (request : ExportRequest) (found : List (Measurement Float))

/-- The runs of the engine that measure the tracks, one for each when they are to be normalized. -/
def measuringRuns : List (List String) :=
  if request.settings.normalize then
    request.mix.project.tracks.map fun track => measuringArguments (request.mix.sourcePath track) .standard
  else []

/-- The tracks, the first of them with what has been found of them. -/
def measuredTracks : List (Track Float) :=
  request.mix.project.tracks.mapIdx fun index track => { track with loudness := found[index]?.or track.loudness }

/-- The export with what has been found of its first tracks. -/
def measured : ExportRequest :=
  let project := { request.mix.project with tracks := request.measuredTracks found }
  { request with mix := { request.mix with project } }

variable {request found} {index : Nat}

theorem length_measuringRuns (hnormalize : request.settings.normalize = true) :
    request.measuringRuns.length = request.mix.project.tracks.length := by
  rw [measuringRuns, if_pos hnormalize, List.length_map]

theorem measuringRuns_eq_nil (hnormalize : request.settings.normalize = false) : request.measuringRuns = [] := by
  rw [measuringRuns, hnormalize]
  rfl

theorem normalize_of_lt (hindex : index < request.measuringRuns.length) : request.settings.normalize = true := by
  refine Bool.of_not_eq_false fun hplain => ?_
  rw [measuringRuns_eq_nil hplain] at hindex
  exact Nat.not_lt_zero _ hindex

theorem getElem?_measuringRuns (hnormalize : request.settings.normalize = true) (index : Nat) :
    request.measuringRuns[index]? = request.mix.project.tracks[index]?.map fun track =>
      measuringArguments (request.mix.sourcePath track) .standard := by
  rw [measuringRuns, if_pos hnormalize, List.getElem?_map]

theorem length_measuredTracks : (request.measuredTracks found).length = request.mix.project.tracks.length :=
  List.length_mapIdx

theorem getElem?_measuredTracks (index : Nat) :
    (request.measuredTracks found)[index]? = request.mix.project.tracks[index]?.map fun track =>
      { track with loudness := found[index]?.or track.loudness } :=
  List.getElem?_mapIdx

theorem measured_nil : request.measured [] = request := by
  have htracks : request.measuredTracks [] = request.mix.project.tracks := by
    apply List.ext_getElem?
    intro index
    rw [getElem?_measuredTracks]
    exact Option.map_id'
  rw [measured, htracks]

/-- What has been found of one more track is noted at that track, and only there. -/
theorem measuredTracks_concat (measurement : Measurement Float) :
    ((request.measuredTracks found).modify found.length fun track => { track with loudness := some measurement }) =
      request.measuredTracks (found ++ [measurement]) := by
  apply List.ext_getElem?
  intro index
  rw [List.getElem?_modify, getElem?_measuredTracks, getElem?_measuredTracks, List.getElem?_append]
  cases request.mix.project.tracks[index]? with
  | none => rfl
  | some track =>
      rcases Nat.lt_trichotomy index found.length with hlt | rfl | hgt
      · simp [hlt, Nat.ne_of_gt hlt]
      · simp
      · have hbehind : ¬ index < found.length := Nat.not_lt_of_gt hgt
        have hpast : index - found.length ≠ 0 := Nat.sub_ne_zero_of_lt hgt
        simp [hbehind, Nat.ne_of_lt hgt, hpast]

variable (request found)

/-- The plan of an export whose tracks have been measured, and the run of the engine that goes by it. -/
structure Renders (arguments : List String) (plan : RenderPlan) : Prop where
  planned : (request.measured found).mix.plan request.settings request.output = .ok plan
  run : arguments = plan.arguments
  given : ["-filter_complex", plan.graph.text] <:+: arguments
  count : plan.graph.chains.length = request.mix.project.tracks.length
  normalized : request.settings.normalize = true →
    ∀ (index : Nat) (measurement : Measurement Float), found[index]? = some measurement →
      ∃ chain filter, plan.graph.chains[index]? = some chain ∧ chain.stages.filters.final? = some filter ∧
        filter.Normalizes measurement
  plain : request.settings.normalize = false → ∀ chain ∈ plan.graph.chains,
    chain.stages.filters.final? = some { name := "anull" }

variable {request found}

theorem final?_of_plan {plan : RenderPlan}
    (hplan : (request.measured found).mix.plan request.settings request.output = .ok plan) (index : Nat) :
    plan.graph.chains[index]?.map (fun chain => chain.stages.final?) =
      request.mix.project.tracks[index]?.map fun track => some (Chain.normalizationEffect
        ⟨request.settings.normalize, .standard⟩ { track with loudness := found[index]?.or track.loudness }) := by
  have hfinals := congrArg (fun finals => finals[index]?) (Mix.final?_of_plan hplan)
  simp only [List.getElem?_map] at hfinals
  refine hfinals.trans ?_
  change (request.measuredTracks found)[index]?.map _ = _
  rw [getElem?_measuredTracks, Option.map_map]
  rfl

/-- Once all tracks that are to be measured have been, the plan is as it should be. -/
theorem renders_of_plan {plan : RenderPlan}
    (hplan : (request.measured found).mix.plan request.settings request.output = .ok plan)
    (hall : found.length = request.measuringRuns.length) : request.Renders found plan.arguments plan where
  planned := hplan
  run := rfl
  given := Mix.given_of_plan hplan
  count := by
    have hlength := congrArg List.length (Mix.final?_of_plan hplan)
    rw [List.length_map, List.length_map] at hlength
    exact hlength.trans length_measuredTracks
  normalized := by
    intro hnormalize index measurement hfound
    have hbound : index < request.mix.project.tracks.length := by
      rw [← length_measuringRuns hnormalize, ← hall]
      exact (List.getElem?_eq_some_iff.mp hfound).1
    have hfinal := final?_of_plan hplan index
    rw [hnormalize, hfound, List.getElem?_eq_getElem hbound, Option.map_some] at hfinal
    obtain ⟨chain, hchain, heffect⟩ := Option.map_eq_some_iff.mp hfinal
    refine ⟨chain, (Effect.normalize .standard measurement).filter, hchain, ?_, Effect.normalizes_filter _ _⟩
    rw [Graph.final?_filters, heffect]
    rfl
  plain := by
    intro hplain chain hchain
    obtain ⟨index, hindex⟩ := List.getElem?_of_mem hchain
    have hfinal := final?_of_plan hplan index
    rw [hplain, hindex, Option.map_some] at hfinal
    obtain ⟨track, -, heffect⟩ := Option.map_eq_some_iff.mp hfinal.symm
    rw [Graph.final?_filters, ← heffect]
    rfl

end ExportRequest

end Segue
