import Segue.Proofs.Mixing.Plan

/-!
How the chains of a mix end. Main statement: in the plan of a mix, the last filter of each chain
normalizes its track by what has been measured of it, or leaves it alone.
-/

namespace Segue

def Graph.final? {φ : Type} (graph : Graph φ) : Option φ := graph.getLast?.bind fun stage => stage.filters.getLast?

theorem Graph.final?_filters (graph : Graph (Effect Float)) :
    graph.filters.final? = graph.final?.map Effect.filter := by
  unfold final? filters
  rw [List.getLast?_map]
  cases graph.getLast? with
  | none => rfl
  | some stage => exact List.getLast?_map

namespace Chain

variable {α : Type} [Scalar α] [Decibels α]

theorem final?_stagesTo (options : Options α) (index : Nat) (track : Track α) (output : Pad) :
    (stagesTo options index track output).final? = some (normalizationEffect options track) := by
  unfold Graph.final? stagesTo
  simp only [List.getLast?_append, List.getLast?_singleton, Option.some_or, Option.bind_some]
  rfl

theorem final?_ofTrack (options : Options α) (index : Nat) (track : Track α) :
    (ofTrack options index track).stages.final? = some (normalizationEffect options track) := by
  rw [stages_ofTrack, final?_stagesTo]

theorem final?_relabel_ofTrack (options : Options α) (index : Nat) (track : Track α) (output : Pad) :
    ((ofTrack options index track).relabel output).stages.final? = some (normalizationEffect options track) := by
  rw [MixGraph.stages_relabel_ofTrack, final?_stagesTo]

end Chain

theorem Project.final?_chains {α : Type} [Scalar α] [Decibels α] (project : Project α) (normalizes : Bool) :
    (project.chains normalizes).map (fun chain => chain.stages.final?) =
      project.tracks.map fun track => some (Chain.normalizationEffect ⟨normalizes, .standard⟩ track) := by
  rw [Project.chains_eq, MixGraph.chainsOf, List.map_map]
  calc
    _ = project.tracks.zipIdx.map fun entry => some (Chain.normalizationEffect ⟨normalizes, .standard⟩ entry.1) :=
        List.map_congr_left fun entry _ => Chain.final?_ofTrack _ _ _
    _ = (project.tracks.zipIdx.map Prod.fst).map fun track =>
          some (Chain.normalizationEffect ⟨normalizes, .standard⟩ track) := by rw [List.map_map]; rfl
    _ = _ := by rw [List.zipIdx_map_fst]

/-- Putting a mix together leaves the ends of its chains as they were, also that of a single one,
which gets another name. -/
theorem Mix.final?_of_plan {mix : Mix Float} {settings : ExportSettings} {output : Path} {plan : RenderPlan}
    (hplan : mix.plan settings output = .ok plan) :
    plan.graph.chains.map (fun chain => chain.stages.final?) =
      mix.project.tracks.map fun track =>
        some (Chain.normalizationEffect { normalizes := settings.normalize, targets := .standard } track) := by
  obtain ⟨hgraph, -⟩ := Mix.ofChains_of_plan hplan
  obtain ⟨first, others, hchains, -, hmix⟩ := MixGraph.assemble_of_ofChains hgraph
  rw [← Project.final?_chains, hmix, hchains]
  cases others with
  | cons second others => rfl
  | nil =>
      obtain ⟨track, htracks⟩ : ∃ track, mix.project.tracks = [track] := by
        have hlength := congrArg List.length hchains
        rw [Project.chains, List.length_mapIdx, List.length_singleton] at hlength
        exact List.length_eq_one_iff.mp hlength
      rw [Project.chains, htracks] at hchains
      cases hchains
      exact congrArg (fun final => [final])
        ((Chain.final?_relabel_ofTrack _ _ _ _).trans (Chain.final?_ofTrack _ _ _).symm)

/-- A filter that normalizes by what has been measured. -/
structure Filter.Normalizes (filter : Filter) (measured : Measurement Float) : Prop where
  name : filter.name = "loudnorm"
  integrated : filter.get? "measured_I" = some (Numeral.plain measured.integrated)
  truePeak : filter.get? "measured_TP" = some (Numeral.plain measured.truePeak)
  range : filter.get? "measured_LRA" = some (Numeral.plain measured.range)
  threshold : filter.get? "measured_thresh" = some (Numeral.plain measured.threshold)

theorem Effect.normalizes_filter (targets : LoudnessTargets Float) (measured : Measurement Float) :
    (Effect.normalize targets measured).filter.Normalizes measured :=
  ⟨rfl, rfl, rfl, rfl, rfl⟩

end Segue
