import Segue.Proofs.Mixing.Mix
import Segue.Proofs.Project.Finite

/-!
What is rendered. Main statement: every mix with tracks has a plan, and its graph gives what is heard of
the project.
-/

namespace Segue

variable {α : Type} [Scalar α] [Decibels α]

/-- The chains of a project are those of its tracks, each with the engine input of its place. -/
theorem Project.chains_eq (project : Project α) (normalizes : Bool) :
    project.chains normalizes = MixGraph.chainsOf ⟨normalizes, .standard⟩ project.tracks.zipIdx := by
  rw [Project.chains, MixGraph.chainsOf, List.mapIdx_eq_zipIdx_map]

theorem Project.signal?_eq (project : Project α) (normalizes : Bool) (transitions : List (Transition α)) :
    project.signal? normalizes transitions =
      Signal.mixed? (project.tracks.zipIdx.map fun entry => entry.1.signal ⟨normalizes, .standard⟩ entry.2)
        transitions := by
  rw [Project.signal?, List.mapIdx_eq_zipIdx_map]

/-- A project with tracks makes a graph, which gives what is heard of it. -/
theorem Project.ofChains_chains (project : Project α) (normalizes : Bool) (default : α)
    (htracks : project.tracks ≠ []) (hword : project.tracks.length ≤ 2 ^ 64)
    (hrates : ∀ track ∈ project.tracks, ∀ rate ∈ track.tempoRate, Scalar.isFinite rate = true) :
    ∃ mix signal, MixGraph.ofChains (project.chains normalizes) (project.transitions default) = .ok mix ∧
      project.signal? normalizes (project.transitions default) = some signal ∧
      mix.stages.evaluate? Signal.reading [] = some [(MixGraph.finalPad, signal)] := by
  have hcount : (project.transitions default).length + 1 = project.tracks.zipIdx.length := by
    have hpositive := List.length_pos_of_ne_nil htracks
    rw [Project.transitions, List.length_map, List.length_dropLast, List.length_zipIdx]
    omega
  have hdistinct : (project.tracks.zipIdx.map Prod.snd).Nodup := by
    rw [List.zipIdx_map_snd]
    exact List.nodup_range'
  have hmem : ∀ entry ∈ project.tracks.zipIdx, entry.1 ∈ project.tracks ∧ entry.2 < project.tracks.length := by
    intro entry hentry
    obtain ⟨hindex, htrack⟩ := List.mem_zipIdx' hentry
    exact ⟨htrack ▸ List.getElem_mem hindex, hindex⟩
  rw [Project.chains_eq, Project.signal?_eq]
  refine MixGraph.ofChains_chainsOf ⟨normalizes, .standard⟩ hcount hdistinct ?_ ?_ ?_
  · intro entry hentry _
    rw [List.length_zipIdx]
    exact (hmem entry hentry).2
  · rw [List.length_zipIdx]
    exact hword
  · exact fun entry hentry => hrates entry.1 (hmem entry hentry).1

theorem Mix.plan_of_ofChains {mix : Mix Float} {settings : ExportSettings} {graph : MixGraph (Effect Float)}
    (hgraph : MixGraph.ofChains (mix.project.chains settings.normalize)
      (mix.project.transitions settings.defaultCrossfade) = .ok graph) (output : Path) :
    ∃ plan, mix.plan settings output = .ok plan ∧ plan.graph = graph := by
  rw [Mix.plan, hgraph]
  exact ⟨_, rfl, rfl⟩

/-- A plan is made of the graph of its mix. -/
theorem Mix.ofChains_of_plan {mix : Mix Float} {settings : ExportSettings} {output : Path} {plan : RenderPlan}
    (hplan : mix.plan settings output = .ok plan) :
    MixGraph.ofChains (mix.project.chains settings.normalize) (mix.project.transitions settings.defaultCrossfade) =
        .ok plan.graph ∧
      plan.arguments = encodingArguments mix.sourcePaths plan.graph.text settings.format settings.bitrate
        mix.project.effectiveMetadata output := by
  rw [Mix.plan] at hplan
  cases hgraph : MixGraph.ofChains (mix.project.chains settings.normalize)
      (mix.project.transitions settings.defaultCrossfade) with
  | error error =>
      rw [hgraph] at hplan
      cases hplan
  | ok graph =>
      rw [hgraph] at hplan
      cases hplan
      exact ⟨rfl, rfl⟩

/-- The engine is given the graph of a render. -/
theorem given_encodingArguments (inputs : List Path) (graph : String) (format : AudioFormat) (bitrate : Nat)
    (metadata : Metadata) (output : Path) :
    ["-filter_complex", graph] <:+: encodingArguments inputs graph format bitrate metadata output := by
  have hgraph : ["-filter_complex", graph] <:+: ["-filter_complex", graph, "-map", MixGraph.finalPad.text] :=
    List.prefix_append _ ["-map", MixGraph.finalPad.text] |>.isInfix
  unfold encodingArguments
  -- the graph stands behind the inputs, and codec, tags and output stand behind it
  refine List.IsInfix.trans ?_ (List.prefix_append _ _).isInfix
  refine List.IsInfix.trans ?_ (List.prefix_append _ _).isInfix
  refine List.IsInfix.trans ?_ (List.prefix_append _ _).isInfix
  exact hgraph.trans (List.suffix_append _ _).isInfix

theorem Mix.given_of_plan {mix : Mix Float} {settings : ExportSettings} {output : Path} {plan : RenderPlan}
    (hplan : mix.plan settings output = .ok plan) : ["-filter_complex", plan.graph.text] <:+: plan.arguments := by
  rw [(Mix.ofChains_of_plan hplan).2]
  exact given_encodingArguments _ _ _ _ _ _

/-- Two tracks of two minutes. Of the first ten seconds are cut out, what is left is played at three
times its rate, and it overlaps the second one by four seconds. -/
def Mix.twoTracks : Mix Float where
  root := ⟨"/music"⟩
  file := ⟨"/music/project.json"⟩
  project :=
    { version := "1.0", name := "Night"
      tracks := [
        { position := 0, title := "First", source := ⟨"first.wav"⟩, duration := 120
          removed := [{ start := 30, stop := 40 }], tempoRate := some 3, crossfade := some 4 },
        { position := 1, title := "Second", source := ⟨"second.wav"⟩, duration := 120, gain := some (-3) }] }

/-- A project whose tracks make a graph. Measuring them does not change that. -/
structure Project.IsRenderable (project : Project Float) : Prop where
  tracks : project.tracks ≠ []
  word : project.tracks.length ≤ 2 ^ 64
  rates : ∀ track ∈ project.tracks, ∀ rate ∈ track.tempoRate, Scalar.isFinite rate = true

theorem Mix.exists_plan {mix : Mix Float} (h : mix.project.IsRenderable) (settings : ExportSettings) (output : Path) :
    ∃ plan, mix.plan settings output = .ok plan := by
  obtain ⟨graph, -, hgraph, -⟩ :=
    mix.project.ofChains_chains settings.normalize settings.defaultCrossfade h.tracks h.word h.rates
  obtain ⟨plan, hplan, -⟩ := mix.plan_of_ofChains hgraph output
  exact ⟨plan, hplan⟩

theorem Mix.exists_plan_twoTracks (output : Path) :
    ∃ plan, Mix.twoTracks.plan { normalize := true } output = .ok plan := by
  have hfinite : Mix.twoTracks.project.IsFinite := by decide +kernel
  exact Mix.exists_plan ⟨List.cons_ne_nil _ _, by decide, fun _ htrack => hfinite.tempoRate htrack⟩ _ output

end Segue
