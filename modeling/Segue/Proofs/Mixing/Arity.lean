import Segue.Proofs.Mixing.Stages

/-!
The pads of the stages of a mix. Main statement: every stage has as many inputs and outputs as its
first filter says, and wherever a chain splits a signal one later stage joins the pieces again, in
order.
-/

namespace Segue

/-- How many inputs a filter takes and how many outputs it gives, going by its name and the count it
is written with. -/
def Filter.arity? (filter : Filter) : Option (Nat × Nat) :=
  match filter.name with
  | "asplit" => ((filter.positional? 0).bind String.toNat?).map fun count => (1, count)
  | "concat" => ((filter.get? "n").bind String.toNat?).map fun count => (count, 1)
  | "acrossfade" => some (2, 1)
  | "anullsrc" => some (0, 1)
  | _ => some (1, 1)

namespace Effect

theorem arity?_filter (effect : Effect Float) : effect.filter.arity? = some effect.arity := by
  cases effect with
  | split count => exact congrArg (Option.map fun count => (1, count)) (Nat.toNat?_repr count)
  | append count => exact congrArg (Option.map fun count => (count, 1)) (Nat.toNat?_repr count)
  | part start stop => cases stop <;> rfl
  | _ => rfl

theorem eq_split_of_name {effect : Effect Float} (h : effect.filter.name = "asplit") :
    ∃ count, effect = .split count := by
  cases effect with
  | split count => exact ⟨count, rfl⟩
  | part start stop => cases stop <;> simp [filter] at h
  | _ => simp [filter] at h

theorem eq_append_of_name {effect : Effect Float} (h : effect.filter.name = "concat") :
    ∃ count, effect = .append count := by
  cases effect with
  | append count => exact ⟨count, rfl⟩
  | part start stop => cases stop <;> simp [filter] at h
  | _ => simp [filter] at h

end Effect

/-- A stage with as many inputs and outputs as its first filter says, and with several of what it
splits into or joins. -/
structure Stage.Announces (stage : Stage Filter) : Prop where
  arity : stage.filters.head?.bind Filter.arity? = some (stage.inputs.length, stage.outputs.length)
  splits : stage.operation = "asplit" → 2 ≤ stage.outputs.length
  joins : stage.operation = "concat" → 2 ≤ stage.inputs.length

namespace Stage

theorem operation_map {stage : Stage (Effect Float)} {effect : Effect Float} (h : stage.filters.head? = some effect) :
    (stage.map Effect.filter).operation = effect.filter.name := by
  simp [operation, map, h]

theorem head?_of_operation {stage : Stage (Effect Float)} {name : String} (hname : name ≠ "")
    (h : (stage.map Effect.filter).operation = name) :
    ∃ effect, stage.filters.head? = some effect ∧ effect.filter.name = name := by
  cases hhead : stage.filters.head? with
  | some effect => exact ⟨effect, rfl, (operation_map hhead).symm.trans h⟩
  | none => exact absurd (by simpa [operation, map, hhead] using h.symm) hname

theorem splits_of_operation {stage : Stage (Effect Float)} (h : (stage.map Effect.filter).operation = "asplit") :
    ∃ count, stage.filters.head? = some (.split count) := by
  obtain ⟨effect, hhead, hname⟩ := head?_of_operation (by decide) h
  obtain ⟨count, rfl⟩ := Effect.eq_split_of_name hname
  exact ⟨count, hhead⟩

theorem joins_of_operation {stage : Stage (Effect Float)} (h : (stage.map Effect.filter).operation = "concat") :
    ∃ count, stage.filters.head? = some (.append count) := by
  obtain ⟨effect, hhead, hname⟩ := head?_of_operation (by decide) h
  obtain ⟨count, rfl⟩ := Effect.eq_append_of_name hname
  exact ⟨count, hhead⟩

theorem Fits.announces {stage : Stage (Effect Float)} (h : stage.Fits) (hfilters : stage.filters ≠ []) :
    (stage.map Effect.filter).Announces where
  arity := by
    obtain ⟨effect, hhead⟩ := Option.isSome_iff_exists.mp (List.isSome_head?.mpr hfilters)
    have harity : (stage.map Effect.filter).filters.head? = some effect.filter := by
      simp [map, hhead]
    rw [harity, Option.bind_some, Effect.arity?_filter, h.arity effect hhead]
    rfl
  splits hoperation := by
    obtain ⟨count, hhead⟩ := splits_of_operation hoperation
    have hcount : count = stage.outputs.length := congrArg Prod.snd (h.arity _ hhead)
    exact hcount ▸ h.several count (.inl hhead)
  joins hoperation := by
    obtain ⟨count, hhead⟩ := joins_of_operation hoperation
    have hcount : count = stage.inputs.length := congrArg Prod.fst (h.arity _ hhead)
    exact hcount ▸ h.several count (.inr hhead)

end Stage

namespace Graph

/-- A stage joins what another one splits: each of its inputs is made of the output in the same
place. -/
structure Joins {φ : Type} (graph : Graph φ) (split join : Stage φ) : Prop where
  count : join.inputs.length = split.outputs.length
  pieces : ∀ (place : Nat) (pad : Pad), split.outputs[place]? = some pad → ∃ piece ∈ graph, ∃ made : Pad,
    join.inputs[place]? = some made ∧ piece.inputs = [pad] ∧ piece.outputs = [made]

/-- No two stages join what one stage splits, when no pad is read twice. -/
theorem Joins.unique {φ : Type} {graph : Graph φ} (hnodup : (graph.flatMap Stage.inputs).Nodup)
    {split join other : Stage φ} (hsplit : split.outputs ≠ []) (hjoin : Joins graph split join)
    (hother : Joins graph split other) {i j : Nat} (hi : graph[i]? = some join) (hj : graph[j]? = some other) :
    i = j := by
  obtain ⟨pad, hpad⟩ := Option.isSome_iff_exists.mp (List.isSome_head?.mpr hsplit)
  rw [List.head?_eq_getElem?] at hpad
  obtain ⟨piece, hpiece, made, hmade, hinputs, houtputs⟩ := hjoin.pieces 0 pad hpad
  obtain ⟨piece', hpiece', made', hmade', hinputs', houtputs'⟩ := hother.pieces 0 pad hpad
  -- the first output has one reader, which makes one link, which has one reader
  obtain ⟨place, hplace⟩ := List.getElem?_of_mem hpiece
  obtain ⟨place', hplace'⟩ := List.getElem?_of_mem hpiece'
  have hreader : pad ∈ piece.inputs := hinputs ▸ List.mem_singleton_self pad
  have hreader' : pad ∈ piece'.inputs := hinputs' ▸ List.mem_singleton_self pad
  have hsame := getElem?_reader_unique hnodup hplace hplace' hreader hreader'
  rw [hsame, hplace', Option.some.injEq] at hplace
  rw [hplace, houtputs, List.cons.injEq] at houtputs'
  rw [← houtputs'.1] at hmade'
  exact getElem?_reader_unique hnodup hi hj (List.mem_of_getElem? hmade) (List.mem_of_getElem? hmade')

variable {α : Type}

/-- Behind every stage that splits a signal come its pieces, and a stage that joins them. -/
def Rejoins : Graph (Effect α) → Prop
  | [] => True
  | stage :: rest =>
    (∀ count, stage.filters.head? = some (.split count) → ∃ pieces join later, rest = pieces ++ join :: later ∧
      (∃ count, join.filters.head? = some (.append count)) ∧
      pieces.map Stage.inputs = stage.outputs.map (fun pad => [pad]) ∧
      pieces.map Stage.outputs = join.inputs.map (fun pad => [pad])) ∧ Rejoins rest

theorem Rejoins.append {first second : Graph (Effect α)} (hfirst : Rejoins first) (hsecond : Rejoins second) :
    Rejoins (first ++ second) := by
  induction first with
  | nil => exact hsecond
  | cons stage first ih =>
      refine ⟨fun count hcount => ?_, ih hfirst.2⟩
      obtain ⟨pieces, join, later, rfl, hjoin⟩ := hfirst.1 count hcount
      exact ⟨pieces, join, later ++ second, by simp, hjoin⟩

theorem rejoins_of_unsplit {graph : Graph (Effect α)}
    (h : ∀ stage ∈ graph, ∀ count, stage.filters.head? ≠ some (.split count)) : Rejoins graph := by
  induction graph with
  | nil => trivial
  | cons stage graph ih =>
      refine ⟨fun count hcount => absurd hcount (h stage List.mem_cons_self count), ih ?_⟩
      exact fun stage hstage => h stage (List.mem_cons_of_mem _ hstage)

/-- What is split is joined by a later stage. -/
theorem Rejoins.exists_join {graph : Graph (Effect α)} (h : Rejoins graph) {i count : Nat} {split : Stage (Effect α)}
    (hi : graph[i]? = some split) (hsplit : split.filters.head? = some (.split count)) :
    ∃ j join, i < j ∧ graph[j]? = some join ∧ (∃ count, join.filters.head? = some (.append count)) ∧
      Joins graph split join := by
  induction graph generalizing i with
  | nil => cases hi
  | cons stage graph ih =>
      cases i with
      | zero =>
          cases hi
          obtain ⟨pieces, join, later, rfl, hjoin, htaken, hgiven⟩ := h.1 count hsplit
          have hlength := congrArg List.length htaken
          have hlength' := congrArg List.length hgiven
          simp only [List.length_map] at hlength hlength'
          refine ⟨pieces.length + 1, join, Nat.succ_pos _, by simp, hjoin, hlength'.symm.trans hlength, ?_⟩
          intro place pad hpad
          have htaken := congrArg (fun pads => pads[place]?) htaken
          have hgiven := congrArg (fun pads => pads[place]?) hgiven
          simp only [List.getElem?_map, hpad, Option.map_some] at htaken hgiven
          obtain ⟨piece, hpiece, hinputs⟩ := Option.map_eq_some_iff.mp htaken
          rw [hpiece, Option.map_some] at hgiven
          obtain ⟨made, hmade, houtputs⟩ := Option.map_eq_some_iff.mp hgiven.symm
          have hmem : piece ∈ split :: (pieces ++ join :: later) :=
            List.mem_cons_of_mem _ (List.mem_append_left _ (List.mem_of_getElem? hpiece))
          exact ⟨piece, hmem, made, hmade, hinputs, houtputs.symm⟩
      | succ i =>
          obtain ⟨j, join, hlt, hj, hjoin, hcount, hpieces⟩ := ih h.2 hi
          refine ⟨j + 1, join, Nat.succ_lt_succ hlt, hj, hjoin, hcount, fun place pad hpad => ?_⟩
          obtain ⟨piece, hpiece, hmade⟩ := hpieces place pad hpad
          exact ⟨piece, List.mem_cons_of_mem _ hpiece, hmade⟩

end Graph

namespace Chain

variable {α : Type}

theorem unsplit_between {effects : List (Effect α)} (hsingle : Effect.StartSingle effects) (input output : Pad)
    (count : Nat) : (Stage.between input effects output).filters.head? ≠ some (.split count) :=
  fun hsplit => (hsingle _ hsplit).ne_split count rfl

theorem rejoins_between {effects : List (Effect α)} (hsingle : Effect.StartSingle effects) (input output : Pad) :
    Graph.Rejoins [Stage.between input effects output] := by
  refine Graph.rejoins_of_unsplit fun stage hstage => ?_
  rw [List.mem_singleton.mp hstage]
  exact unsplit_between hsingle input output

/-- What is read off the stages of the pieces depends on the numbers of the pieces alone. -/
theorem map_pieceStagesFrom {β : Type} {index : Nat} {purpose : Purpose} {f : Stage (Effect α) → β} {g : Nat → β}
    (h : ∀ piece effects, f (Stage.between (branch index purpose piece) effects (segment index purpose piece)) =
      g piece) (start : Nat) (pieces : List (List (Effect α))) :
    (pieceStagesFrom index purpose start pieces).map f = (List.range' start pieces.length).map g := by
  induction pieces generalizing start with
  | nil => rfl
  | cons effects pieces ih =>
      rw [pieceStagesFrom_cons, List.map_cons, h, ih, List.length_cons, List.range'_succ, List.map_cons]

/-- Pieces are joined behind the stage that splits the signal for them. -/
theorem rejoins_splitJoin {index : Nat} {purpose : Purpose} {pieces : List (List (Effect α))} (input output : Pad)
    (hsingle : ∀ effects ∈ pieces, Effect.StartSingle effects) :
    Graph.Rejoins (splitJoin index purpose pieces input output) := by
  by_cases hone : ∃ only, pieces = [only]
  · obtain ⟨only, rfl⟩ := hone
    exact rejoins_between (hsingle only List.mem_cons_self) input output
  · rw [splitJoin_of_ne fun only honly => hone ⟨only, honly⟩]
    constructor
    · rintro count -
      refine ⟨_, joinStage index purpose pieces.length output, [], rfl, ⟨pieces.length, rfl⟩, ?_, ?_⟩
      · rw [map_pieceStagesFrom (fun piece effects => rfl), ← List.range_eq_range', splitStage, List.map_map]
        rfl
      · rw [map_pieceStagesFrom (fun piece effects => rfl), ← List.range_eq_range', joinStage, List.map_map]
        rfl
    · refine Graph.Rejoins.append (Graph.rejoins_of_unsplit fun stage hstage => ?_)
        (Graph.rejoins_of_unsplit fun stage hstage => ?_)
      · obtain ⟨piece, hpiece, rfl⟩ := List.mem_mapIdx.mp hstage
        exact unsplit_between (hsingle _ (List.getElem_mem hpiece)) _ _
      · rw [List.mem_singleton.mp hstage]
        intro count hcount
        cases hcount

variable [Scalar α] {index : Nat} {track : Track α}

theorem rejoins_cutStages : Graph.Rejoins (cutStages index track track.kept) := by
  cases track.kept with
  | nil =>
      refine Graph.rejoins_of_unsplit fun stage hstage => ?_
      rw [List.mem_singleton.mp hstage]
      exact fun count => nofun
  | cons first others =>
      cases others with
      | nil => exact rejoins_between (startSingle_singleEffects track first) _ _
      | cons second others =>
          have hsingle : ∀ effects ∈ (first :: second :: others).map intervalEffects, Effect.StartSingle effects :=
            List.forall_mem_map.mpr fun interval _ => startSingle_intervalEffects interval
          rw [cutStages_cons_cons]
          exact rejoins_splitJoin _ _ hsingle

theorem rejoins_tempoStages (input : Pad) : Graph.Rejoins (tempoStages index track track.kept input).1 := by
  rw [tempoStages]
  cases track.tempoChange? with
  | none => trivial
  | some rate =>
      cases track.tempoRegion with
      | none => exact rejoins_between (startSingle_stretches rate) _ _
      | some region =>
          exact rejoins_splitJoin _ _ (List.forall_mem_map.mpr fun piece _ => startSingle_rampEffects piece)

variable [Decibels α]

theorem rejoins_volumeStages (input : Pad) : Graph.Rejoins (volumeStages index track input).1 := by
  rw [volumeStages]
  cases hvolume : volumeEffect? track with
  | none => trivial
  | some effect =>
      exact rejoins_between (Effect.startSingle_cons (isSingle_volumeEffect? hvolume) []) _ _

/-- Whatever a chain splits it joins again. -/
theorem rejoins_stagesTo (options : Options α) (index : Nat) (track : Track α) (output : Pad) :
    Graph.Rejoins (stagesTo options index track output) := by
  have hlast : Effect.StartSingle [normalizationEffect options track] :=
    Effect.startSingle_cons (isSingle_normalizationEffect options track) []
  exact rejoins_cutStages.append ((rejoins_tempoStages _).append
    ((rejoins_volumeStages _).append (rejoins_between hlast _ _)))

end Chain

namespace Graph

theorem mem_filters {graph : Graph (Effect Float)} {stage : Stage Filter} (h : stage ∈ filters graph) :
    ∃ effects ∈ graph, effects.map Effect.filter = stage := List.mem_map.mp h

theorem getElem?_filters {graph : Graph (Effect Float)} {i : Nat} {stage : Stage Filter}
    (h : (filters graph)[i]? = some stage) :
    ∃ effects, graph[i]? = some effects ∧ effects.map Effect.filter = stage := by
  rw [filters, List.getElem?_map] at h
  exact Option.map_eq_some_iff.mp h

theorem flatMap_inputs_filters (graph : Graph (Effect Float)) :
    (filters graph).flatMap Stage.inputs = graph.flatMap Stage.inputs := by
  rw [filters, List.flatMap_map]
  rfl

theorem Joins.filters {graph : Graph (Effect Float)} {split join : Stage (Effect Float)} (h : Joins graph split join) :
    Joins (filters graph) (split.map Effect.filter) (join.map Effect.filter) where
  count := h.count
  pieces place pad hpad := by
    obtain ⟨piece, hpiece, made, hmade⟩ := h.pieces place pad hpad
    exact ⟨piece.map Effect.filter, List.mem_map_of_mem hpiece, made, hmade⟩

/-- Whatever is split is joined by one later stage and no other, when no pad is read twice. -/
theorem Rejoins.exists_unique_join {graph : Graph (Effect Float)} (h : Rejoins graph)
    (hfits : ∀ stage ∈ graph, stage.Fits) (hnodup : (graph.flatMap Stage.inputs).Nodup) {i : Nat}
    {split : Stage Filter} (hi : (filters graph)[i]? = some split) (hsplit : split.operation = "asplit") :
    ∃! j, ∃ join, i < j ∧ (filters graph)[j]? = some join ∧ join.operation = "concat" ∧
      Joins (filters graph) split join := by
  obtain ⟨stage, hstage, rfl⟩ := getElem?_filters hi
  obtain ⟨count, hhead⟩ := Stage.splits_of_operation hsplit
  obtain ⟨j, join, hlt, hj, ⟨joined, hjoined⟩, hjoins⟩ := h.exists_join hstage hhead
  have hoperation : (join.map Effect.filter).operation = "concat" := Stage.operation_map hjoined
  have hplace : (filters graph)[j]? = some (join.map Effect.filter) := by
    rw [filters, List.getElem?_map, hj, Option.map_some]
  refine ⟨j, ⟨_, hlt, hplace, hoperation, hjoins.filters⟩, ?_⟩
  rintro k ⟨other, -, hk, -, hother⟩
  have hfit := hfits stage (List.mem_of_getElem? hstage)
  have hcount : count = stage.outputs.length := congrArg Prod.snd (hfit.arity _ hhead)
  have houtputs : stage.outputs ≠ [] := by
    have hseveral := hfit.several count (.inl hhead)
    exact List.ne_nil_of_length_pos (by omega)
  rw [← flatMap_inputs_filters] at hnodup
  exact Joins.unique hnodup houtputs hother hjoins.filters hk hplace

end Graph

theorem MixGraph.unsplit_transitionStage {α : Type} [Scalar α] (transition : Transition α)
    (carried next output : Pad) (count : Nat) :
    (transitionStage transition carried next output).filters.head? ≠ some (.split count) := by
  intro hsplit
  simp only [transitionStage, transitionEffect, List.head?_cons, Option.some.injEq] at hsplit
  split at hsplit <;> cases hsplit

/-- A mix whose stages have the pads they announce, and whose chains join again what they split. -/
structure MixGraph.IsMatched (graph : MixGraph (Effect Float)) : Prop where
  announces : ∀ stage ∈ Graph.filters graph.stages, stage.Announces
  /-- Only chains split. -/
  unsplit : ∀ stage ∈ Graph.filters graph.transitions, stage.operation ≠ "asplit"
  rejoins : ∀ chain ∈ graph.chains, ∀ (i : Nat) (split : Stage Filter),
    (Graph.filters chain.stages)[i]? = some split → split.operation = "asplit" →
    ∃! j, ∃ join, i < j ∧ (Graph.filters chain.stages)[j]? = some join ∧ join.operation = "concat" ∧
      Graph.Joins (Graph.filters chain.stages) split join

/-- Every stage of a plan has the inputs and outputs that its first filter announces. Wherever a
chain splits a signal, one later stage of the chain joins the pieces again, in order. -/
theorem Mix.isMatched_of_plan {mix : Mix Float} {settings : ExportSettings} {output : Path} {plan : RenderPlan}
    (hplan : mix.plan settings output = .ok plan) : plan.graph.IsMatched := by
  have hgraph := (Mix.ofChains_of_plan hplan).1
  rw [Project.chains_eq] at hgraph
  have hfits := MixGraph.fits_of_ofChains hgraph
  obtain ⟨hfilters, hnodup⟩ := Graph.output_eq_ok (MixGraph.output_of_ofChains hgraph)
  constructor
  case announces =>
    intro stage hstage
    obtain ⟨effects, heffects, rfl⟩ := Graph.mem_filters hstage
    exact (hfits effects heffects).announces (hfilters effects heffects)
  case unsplit =>
    intro stage hstage hsplit
    obtain ⟨effects, heffects, rfl⟩ := Graph.mem_filters hstage
    obtain ⟨count, hhead⟩ := Stage.splits_of_operation hsplit
    obtain ⟨transition, before, next, link, -, -, rfl⟩ := MixGraph.mem_transitions_of_ofChains hgraph heffects
    exact MixGraph.unsplit_transitionStage transition before next link.pad count hhead
  case rejoins =>
    intro chain hchain i split hi hsplit
    have hstages : ∀ stage ∈ chain.stages, stage.Fits := fun stage hstage =>
      hfits stage (List.mem_append_left _ (List.mem_flatMap.mpr ⟨chain, hchain, hstage⟩))
    obtain ⟨entry, -, link, hchainStages⟩ := MixGraph.chains_of_ofChains hgraph chain hchain
    have hrejoins : Graph.Rejoins chain.stages := by
      rw [hchainStages]
      exact Chain.rejoins_stagesTo _ _ _ _
    -- the pads that a chain reads are among those of the whole graph
    have hchainNodup : (chain.stages.flatMap Stage.inputs).Nodup := by
      rw [MixGraph.stages, List.flatMap_append, List.flatMap_assoc, List.nodup_append'] at hnodup
      exact (List.nodup_flatMap.mp hnodup.1).1 chain hchain
    exact hrejoins.exists_unique_join hstages hchainNodup hi hsplit

theorem Mix.isMatched_of_plan_twoTracks :
    ∃ plan, Mix.twoTracks.plan { normalize := true } ⟨"/music/night.flac"⟩ = .ok plan ∧ plan.graph.IsMatched := by
  obtain ⟨plan, hplan⟩ := Mix.exists_plan_twoTracks ⟨"/music/night.flac"⟩
  exact ⟨plan, hplan, Mix.isMatched_of_plan hplan⟩

end Segue
