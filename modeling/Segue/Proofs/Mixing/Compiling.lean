import Segue.Proofs.Graph.Discipline
import Segue.Proofs.Graph.Skeleton
import Segue.Proofs.Mixing.Stages

/-!
When chains make a mix. Main statement: chains of tracks with one transition between each two
neighbours make a graph just when no two of them have the same index and each one that reads its
source has an index below their number. The graph then joins them from left to right.
-/

namespace Segue

/-- What a chain is compiled from. -/
structure Chain.Recipe (α : Type) where
  options : Chain.Options α
  track : Track α
  index : Nat

namespace Chain

variable {α : Type}

/-- The track with the engine input that its source is. -/
def Recipe.entry (recipe : Recipe α) : Track α × Nat := (recipe.track, recipe.index)

theorem input_mem_splitJoin (index : Nat) (purpose : Purpose) (pieces : List (List (Effect α))) (input output : Pad) :
    input ∈ Graph.inputs (splitJoin index purpose pieces input output) := by
  by_cases hone : ∃ only, pieces = [only]
  · obtain ⟨only, rfl⟩ := hone
    rw [splitJoin_singleton]
    exact List.mem_singleton_self input
  · rw [splitJoin_of_ne fun only honly => hone ⟨only, honly⟩, Graph.inputs_cons]
    exact List.mem_append_left _ (List.mem_singleton_self input)

variable [Scalar α] [Decibels α]

def Recipe.chain (recipe : Recipe α) : Chain (Effect α) := ofTrack recipe.options recipe.index recipe.track

/-- A chain that has something to play reads its source. -/
theorem input_mem_stagesTo (options : Options α) (index : Nat) {track : Track α} (output : Pad)
    (hkept : track.kept ≠ []) : Pad.input index ∈ Graph.inputs (stagesTo options index track output) := by
  have hcut : Pad.input index ∈ Graph.inputs (cutStages index track track.kept) := by
    match hlist : track.kept with
    | [] => exact absurd hlist hkept
    | [only] => exact List.mem_singleton_self _
    | first :: second :: others =>
        rw [cutStages_cons_cons]
        exact input_mem_splitJoin _ _ _ _ _
  rw [stagesTo, Graph.inputs, List.flatMap_append]
  exact List.mem_append_left _ hcut

/-- The options of a mix decide what the last filter of a chain does, and nothing about its labels. -/
theorem skeleton_stagesTo (options other : Options α) (index : Nat) (track : Track α) (output : Pad) :
    (stagesTo options index track output).skeleton = (stagesTo other index track output).skeleton := by
  simp only [stagesTo, Graph.skeleton_append]
  rfl

end Chain

open Segue.Chain (Recipe stagesTo)

namespace Graph

variable {φ : Type}

/-- What the stage at a place carries on, when each stage carries on what the one in front of it
makes and the first one something that is given. -/
def carriedAt? (first : Pad) (graph : Graph φ) : Nat → Option Pad
  | 0 => some first
  | place + 1 => graph[place]?.bind fun stage => stage.outputs.head?

theorem carriedAt?_cons {stage : Stage φ} {label : Pad} (hlabel : stage.outputs = [label]) (first : Pad)
    (rest : Graph φ) (place : Nat) :
    carriedAt? first (stage :: rest) (place + 1) = carriedAt? label rest place := by
  cases place with
  | zero =>
      show stage.outputs.head? = some label
      rw [hlabel]
      rfl
  | succ place => rfl

end Graph

namespace MixGraph

variable {α : Type} [Scalar α]

theorem length_joinFrom (carried : Pad) (number : Nat) (entries : List (Pad × Transition α)) :
    (joinFrom carried number entries).length = entries.length := by
  induction entries generalizing carried number with
  | nil => rfl
  | cons entry entries ih =>
      cases entries with
      | nil => rfl
      | cons second entries =>
          rw [joinFrom_cons_cons, List.length_cons, ih]
          rfl

/-- Each transition carries on what the one in front of it makes and joins it with what is next. -/
theorem getElem?_joinFrom {carried : Pad} {number place : Nat} {entries : List (Pad × Transition α)}
    {entry : Pad × Transition α} (h : entries[place]? = some entry) :
    ∃ before label, Graph.carriedAt? carried (joinFrom carried number entries) place = some before ∧
      (joinFrom carried number entries)[place]? = some (transitionStage entry.2 before entry.1 label) := by
  induction entries generalizing carried number place with
  | nil => cases h
  | cons first entries ih =>
      cases entries with
      | nil =>
          cases place with
          | zero =>
              cases h
              exact ⟨carried, finalPad, rfl, rfl⟩
          | succ place => cases h
      | cons second entries =>
          rw [joinFrom_cons_cons]
          cases place with
          | zero =>
              cases h
              exact ⟨carried, foldPad number, rfl, rfl⟩
          | succ place =>
              obtain ⟨before, label, hbefore, hstage⟩ := @ih (foldPad number) (number + 1) place h
              exact ⟨before, label, (Graph.carriedAt?_cons rfl _ _ _).trans hbefore, hstage⟩

/-- Chains in order, joined from left to right by one transition between each two neighbours. -/
structure IsFold (mix : MixGraph (Effect α)) (chains : List (Chain (Effect α))) (transitions : List (Transition α)) :
    Prop where
  output : mix.output = finalPad
  /-- Nothing but the output stays open. -/
  open_output : Graph.output mix.stages chains.length = .ok mix.output
  indexes : mix.chains.map Chain.index = chains.map Chain.index
  chain_count : mix.chains.length = chains.length
  transition_count : mix.transitions.length = transitions.length
  joins : ∀ (place : Nat) (transition : Transition α), transitions[place]? = some transition →
    ∃ (first : Chain (Effect α)) (before : Pad) (next : Chain (Effect α)) (label : Pad),
      mix.chains.head? = some first ∧ Graph.carriedAt? first.output mix.transitions place = some before ∧
      mix.chains[place + 1]? = some next ∧
      mix.transitions[place]? = some (transitionStage transition before next.output label)

/-- Whatever makes a graph is joined from left to right in it. -/
theorem isFold_of_ofChains {chains : List (Chain (Effect α))} {transitions : List (Transition α)}
    {mix : MixGraph (Effect α)} (h : ofChains chains transitions = .ok mix) : mix.IsFold chains transitions := by
  have hopen := output_of_ofChains h
  obtain ⟨first, others, rfl, hcount, rfl⟩ := assemble_of_ofChains h
  cases others with
  | nil =>
      cases List.length_eq_zero_iff.mp hcount
      exact ⟨rfl, hopen, rfl, rfl, rfl, nofun⟩
  | cons second others =>
      set entries := ((second :: others).map Chain.output).zip transitions with hentries
      have hlength : entries.length = transitions.length := by
        rw [hentries, List.length_zip, List.length_map, hcount, Nat.min_self]
      refine ⟨rfl, hopen, rfl, rfl, (length_joinFrom _ _ _).trans hlength, fun place transition htransition => ?_⟩
      have hplace : place < (second :: others).length := by
        rw [← hcount]
        exact (List.getElem?_eq_some_iff.mp htransition).1
      have hnext : (second :: others)[place]? = some (second :: others)[place] := List.getElem?_eq_getElem hplace
      have hentry : entries[place]? = some ((second :: others)[place].output, transition) := by
        rw [hentries, List.getElem?_zip_eq_some, List.getElem?_map, hnext]
        exact ⟨rfl, htransition⟩
      obtain ⟨before, label, hbefore, hstage⟩ := getElem?_joinFrom hentry
      exact ⟨first, before, _, label, rfl, hbefore, hnext, hstage⟩

section Chains

variable [Decibels α]

/-- Chains have the labels that they would have with other options. -/
theorem skeleton_chainsOf (options : Chain.Options α) (recipes : List (Recipe α)) :
    Graph.skeleton ((recipes.map Recipe.chain).flatMap Chain.stages) =
      Graph.skeleton ((chainsOf options (recipes.map Recipe.entry)).flatMap Chain.stages) := by
  induction recipes with
  | nil => rfl
  | cons recipe recipes ih =>
      have hchain : recipe.chain.stages.skeleton =
          (stagesTo options recipe.index recipe.track (Chain.outputPad recipe.index)).skeleton := by
        rw [Recipe.chain, Chain.stages_ofTrack]
        exact Chain.skeleton_stagesTo _ _ _ _ _
      rw [List.map_cons, List.map_cons, flatMap_stages_cons, List.flatMap_cons, Graph.skeleton_append,
        Graph.skeleton_append, ih, hchain]
      rfl

theorem skeleton_assemble (options : Chain.Options α) (recipe : Recipe α) (others : List (Recipe α))
    (transitions : List (Transition α)) :
    (assemble recipe.chain (others.map Recipe.chain) transitions).stages.skeleton =
      (assemble (Chain.ofTrack options recipe.entry.2 recipe.entry.1) (chainsOf options (others.map Recipe.entry))
        transitions).stages.skeleton := by
  cases others with
  | nil =>
      have hstages := stages_assemble_nil recipe.options recipe.entry transitions
      rw [List.map_nil, List.map_nil, stages_assemble_nil]
      exact (congrArg Graph.skeleton hstages).trans (Chain.skeleton_stagesTo _ _ _ _ _)
  | cons second others =>
      have houtputs : ((second :: others).map Recipe.chain).map Chain.output =
          (chainsOf options ((second :: others).map Recipe.entry)).map Chain.output := by
        rw [chainsOf, List.map_map, List.map_map, List.map_map]
        rfl
      -- both sides are the chains and what joins their ends
      show Graph.skeleton (((recipe :: second :: others).map Recipe.chain).flatMap Chain.stages ++
          joinFrom (Chain.outputPad recipe.index) 1
            ((((second :: others).map Recipe.chain).map Chain.output).zip transitions)) =
        Graph.skeleton ((chainsOf options ((recipe :: second :: others).map Recipe.entry)).flatMap Chain.stages ++
          joinFrom (Chain.outputPad recipe.index) 1
            (((chainsOf options ((second :: others).map Recipe.entry)).map Chain.output).zip transitions))
      rw [Graph.skeleton_append, Graph.skeleton_append, skeleton_chainsOf options, houtputs]

variable (options : Chain.Options α) {entry : Track α × Nat} {others : List (Track α × Nat)}
  {transitions : List (Transition α)}

/-- What the chains end in is among their links. -/
theorem chain_sublist_chainLinks (entries : List (Track α × Nat)) :
    (entries.map fun entry => Link.chain entry.2).Sublist (entries.flatMap chainLinks) := by
  induction entries with
  | nil => exact List.Sublist.slnil
  | cons entry entries ih =>
      rw [List.map_cons, List.flatMap_cons, chainLinks, List.append_assoc, List.singleton_append]
      exact (ih.cons_cons _).trans (List.sublist_append_right _ _)

/-- A mix makes links, and they are not distinct when two of its chains have one index. -/
theorem exists_links_assemble (entry : Track α × Nat) (others : List (Track α × Nat))
    (transitions : List (Transition α)) :
    ∃ links : List Link,
      (assemble (Chain.ofTrack options entry.2 entry.1) (chainsOf options others) transitions).stages.outputs =
          links.map Link.pad ∧
        (links.Nodup → ((entry :: others).map Prod.snd).Nodup) := by
  cases others with
  | nil =>
      refine ⟨(Chain.parts entry.1).map (Link.inside entry.2) ++ [.final], ?_, fun _ => List.nodup_singleton _⟩
      rw [stages_assemble_nil, Chain.outputs_stagesTo, List.map_append, List.map_map]
      rfl
  | cons second others =>
      refine ⟨(entry :: second :: others).flatMap chainLinks ++ joinLinks 1
        (((chainsOf options (second :: others)).map Chain.output).zip transitions).length, ?_, fun hnodup => ?_⟩
      · rw [stages_assemble_cons, Graph.outputs_append, outputs_chainsOf, outputs_joinFrom, List.map_append]
      · have hchains := hnodup.of_append_left.sublist (chain_sublist_chainLinks _)
        refine List.Nodup.of_map Link.chain ?_
        rwa [List.map_map]

/-- Every chain of a mix that has something to play reads its source there. -/
theorem input_mem_assemble (transitions : List (Transition α)) {other : Track α × Nat}
    (hother : other ∈ entry :: others) (hkept : other.1.kept ≠ []) :
    Pad.input other.2 ∈ Graph.inputs
      (assemble (Chain.ofTrack options entry.2 entry.1) (chainsOf options others) transitions).stages := by
  cases others with
  | nil =>
      rw [stages_assemble_nil, List.mem_singleton.mp hother]
      exact Chain.input_mem_stagesTo _ _ _ (List.mem_singleton.mp hother ▸ hkept)
  | cons second others =>
      have hchain : Pad.input other.2 ∈ Graph.inputs (Chain.ofTrack options other.2 other.1).stages := by
        rw [Chain.stages_ofTrack]
        exact Chain.input_mem_stagesTo _ _ _ hkept
      rw [stages_assemble_cons, Graph.inputs, List.flatMap_append, List.flatMap_assoc]
      exact List.mem_append_left _ (List.mem_flatMap.mpr ⟨_, List.mem_map_of_mem hother, hchain⟩)

/-- The labels of a mix are in order just when its chains have distinct indexes, and those of the
chains that read a source are in range. -/
theorem output_assemble_iff {count : Nat} (hcount : transitions.length = others.length) (hword : count ≤ 2 ^ 64)
    (hrates : ∀ other ∈ entry :: others, ∀ rate ∈ other.1.tempoRate, Scalar.isFinite rate = true) :
    Graph.output (assemble (Chain.ofTrack options entry.2 entry.1) (chainsOf options others) transitions).stages count =
        .ok finalPad ↔
      ((entry :: others).map Prod.snd).Nodup ∧
        ∀ other ∈ entry :: others, other.1.kept ≠ [] → other.2 < count := by
  constructor
  · intro h
    have hwired := Graph.isWired_of_output h
    obtain ⟨links, houtputs, hdistinct⟩ := exists_links_assemble options entry others transitions
    refine ⟨hdistinct (List.Nodup.of_map Link.pad (houtputs ▸ hwired.outputs_nodup)), fun other hother hkept => ?_⟩
    obtain ⟨stage, hstage, hpad⟩ := List.mem_flatMap.mp (input_mem_assemble options transitions hother hkept)
    obtain ⟨place, hplace⟩ := List.getElem?_of_mem hstage
    rcases hwired.supplied place stage hplace _ hpad with
      ⟨index, hindex, hlt⟩ | ⟨earlier, -, producer, hproducer, hmade⟩
    · exact Pad.eq_of_inputIndex?_input hindex ▸ hlt
    · -- what stages make are links, and no link has the label of a source
      have hmade : Pad.input other.2 ∈ links.map Link.pad :=
        houtputs ▸ List.mem_flatMap.mpr ⟨producer, List.mem_of_getElem? hproducer, hmade⟩
      obtain ⟨link, -, hlink⟩ := List.mem_map.mp hmade
      exact absurd hlink (Link.pad_ne_input link other.2)
  · rintro ⟨hdistinct, hrange⟩
    exact output_assemble options hcount hdistinct hrange hword hrates

omit [Decibels α] in
/-- Chains make the graph that they are put together into, or none. -/
theorem exists_ofChains_iff {first : Chain (Effect α)} {others : List (Chain (Effect α))}
    {transitions : List (Transition α)} (hcount : transitions.length = others.length) :
    (∃ mix, ofChains (first :: others) transitions = .ok mix) ↔
      Graph.output (assemble first others transitions).stages (first :: others).length = .ok finalPad := by
  have houtput : (assemble first others transitions).output = finalPad := by
    unfold assemble
    split <;> rfl
  constructor
  · rintro ⟨mix, hmix⟩
    have hopen := output_of_ofChains hmix
    obtain ⟨_, _, hchains, -, rfl⟩ := assemble_of_ofChains hmix
    cases hchains
    exact hopen.trans (congrArg _ houtput)
  · intro h
    exact ⟨_, ofChains_cons hcount (h.trans (congrArg _ houtput.symm))⟩

/-- **Which chains make a mix.** No chains make no graph, and neither do chains with any other
number of transitions than one between each two neighbours. With that number, chains of tracks make
a graph just when no two of them have the same index and every one that has something to play has an
index below their number. The graph then ends in the final output, and joins all chains from left to
right. -/
theorem ofChains_eq_ok_iff (recipes : List (Recipe α)) (transitions : List (Transition α))
    (hword : recipes.length ≤ 2 ^ 64)
    (hrates : ∀ recipe ∈ recipes, ∀ rate ∈ recipe.track.tempoRate, Scalar.isFinite rate = true) :
    (recipes = [] → ofChains (recipes.map Recipe.chain) transitions = .error .noTracks) ∧
      (recipes ≠ [] → transitions.length + 1 ≠ recipes.length →
        ofChains (recipes.map Recipe.chain) transitions =
          .error (.transitionCount recipes.length transitions.length)) ∧
      (transitions.length + 1 = recipes.length →
        ((∃ mix, ofChains (recipes.map Recipe.chain) transitions = .ok mix) ↔
          (recipes.map Recipe.index).Nodup ∧
            ∀ recipe ∈ recipes, recipe.track.kept ≠ [] → recipe.index < recipes.length) ∧
        ∀ mix, ofChains (recipes.map Recipe.chain) transitions = .ok mix →
          mix.IsFold (recipes.map Recipe.chain) transitions) := by
  cases recipes with
  | nil => exact ⟨fun _ => rfl, fun h => absurd rfl h, nofun⟩
  | cons recipe others =>
      refine ⟨nofun, fun _ hcount => ?_, fun hcount => ⟨?_, fun mix hmix => isFold_of_ofChains hmix⟩⟩
      · have hcount : transitions.length ≠ (others.map Recipe.chain).length := by
          intro heq
          rw [List.length_map] at heq
          exact hcount (congrArg Nat.succ heq)
        rw [List.map_cons, ofChains, if_pos hcount, List.length_cons, List.length_map, List.length_cons]
      · have hcount : transitions.length = others.length := Nat.succ.inj hcount
        have hlength : (recipe.chain :: others.map Recipe.chain).length = (recipe :: others).length :=
          congrArg Nat.succ (List.length_map _)
        have hrates' : ∀ other ∈ (recipe :: others).map Recipe.entry, ∀ rate ∈ other.1.tempoRate,
            Scalar.isFinite rate = true :=
          List.forall_mem_map.mpr hrates
        have hiff := output_assemble_iff recipe.options (hcount.trans (List.length_map _).symm) hword hrates'
        rw [List.map_cons, exists_ofChains_iff (hcount.trans (List.length_map _).symm), hlength,
          Graph.output_congr (skeleton_assemble recipe.options recipe others transitions)]
        refine hiff.trans ?_
        rw [← List.map_cons, List.map_map, List.forall_mem_map]
        rfl

end Chains

/-- Nothing is left of the first track, whose index is out of range, and all of the second one. -/
def removedFirst : List (Recipe Float) :=
  [{ options := { normalizes := true, targets := .standard }
     track :=
       { position := 0, title := "First", source := ⟨"first.wav"⟩, duration := 120
         removed := [{ start := 0, stop := 120 }], tempoRate := some 3 }
     index := 7 },
   { options := { normalizes := false, targets := .standard }
     track := { position := 1, title := "Second", source := ⟨"second.wav"⟩, duration := 120, gain := some (-3) }
     index := 1 }]

theorem ofChains_eq_ok_iff_removedFirst :
    removedFirst.length ≤ 2 ^ 64 ∧
      (∀ recipe ∈ removedFirst, ∀ rate ∈ recipe.track.tempoRate, Scalar.isFinite rate = true) ∧
      ∃ mix, ofChains (removedFirst.map Recipe.chain) [⟨4, .sCurve⟩] = .ok mix ∧
        mix.IsFold (removedFirst.map Recipe.chain) [⟨4, .sCurve⟩] := by
  have hword : removedFirst.length ≤ 2 ^ 64 := by decide
  have hrates : ∀ recipe ∈ removedFirst, ∀ rate ∈ recipe.track.tempoRate, Scalar.isFinite rate = true := by
    decide +kernel
  -- the index of the first chain is above the number of chains, but the chain reads no source
  have hrange : ∀ recipe ∈ removedFirst, recipe.track.kept.isEmpty = false → recipe.index < removedFirst.length := by
    decide +kernel
  obtain ⟨hiff, hfold⟩ := (ofChains_eq_ok_iff removedFirst [⟨4, .sCurve⟩] hword hrates).2.2 rfl
  obtain ⟨mix, hmix⟩ := hiff.mpr ⟨by decide, fun recipe hrecipe hkept =>
    hrange recipe hrecipe (List.isEmpty_eq_false_iff.mpr hkept)⟩
  exact ⟨hword, hrates, mix, hmix, hfold mix hmix⟩

end MixGraph

end Segue
