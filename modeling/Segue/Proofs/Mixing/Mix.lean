import Segue.Proofs.Mixing.ChainLinks

/-!
What a mix does. Main statements: chains of distinct tracks and one transition between each two always
make a graph, and the stages of the graph in order leave one link open, the final one, which carries the
tracks joined by the transitions from left to right.
-/

namespace Segue

open Segue.Chain (Inside Unused stagesTo)

def Link.track? : Link → Option Nat
  | inside track _ | chain track => some track
  | fold _ | final => none

namespace MixGraph

variable {α : Type} [Scalar α]

theorem joinFrom_cons_cons (input : Pad) (number : Nat) (entry second : Pad × Transition α)
    (entries : List (Pad × Transition α)) :
    joinFrom input number (entry :: second :: entries) =
      transitionStage entry.2 input entry.1 (foldPad number) ::
        joinFrom (foldPad number) (number + 1) (second :: entries) := rfl

section Transitions

variable {δ : Type} {reading : Reading (Effect α) δ}

/-- What carried on and what comes next are made into one by a transition. -/
theorem evaluate?_transitionStage {carried rest : Carried δ} {input next : Pad} {before after : δ}
    (transition : Transition α) (output : Pad)
    (htake : carried.take? reading input = some (before, (next, after) :: rest))
    (hnext : next.inputIndex? = none) :
    (transitionStage transition input next output).evaluate? reading carried =
      some (rest ++ [(output, reading.result [transitionEffect transition] [before, after])]) := by
  rw [Stage.evaluate?, transitionStage, Carried.takeAll?_cons htake,
    Carried.takeAll?_cons (Carried.take?_cons after hnext)]
  rfl

/-- The values one after the other, each joined to all before it by a transition. -/
def joinedBy (reading : Reading (Effect α) δ) (first : δ) (rest : List (δ × Transition α)) : δ :=
  rest.foldl (fun joined (next, transition) => reading.result [transitionEffect transition] [joined, next]) first

theorem joinedBy_cons (first next : δ) (transition : Transition α) (rest : List (δ × Transition α)) :
    joinedBy reading first ((next, transition) :: rest) =
      joinedBy reading (reading.result [transitionEffect transition] [first, next]) rest := rfl

/-- The transitions join what is open from left to right into the final link. -/
theorem evaluate?_joinFrom {carried others : Carried δ} {input : Pad} {first : δ} {transitions : List (Transition α)}
    (htake : carried.take? reading input = some (first, others)) (hothers : others ≠ [])
    (hcount : transitions.length = others.length)
    (hlinks : ∀ pad ∈ others.pads, ∃ track, (Link.chain track).pad = pad)
    (number : Nat) :
    Graph.evaluate? reading (joinFrom input number (others.pads.zip transitions)) carried =
      some [(finalPad, joinedBy reading first ((others.map Prod.snd).zip transitions))] := by
  induction others generalizing carried input first transitions number with
  | nil => exact absurd rfl hothers
  | cons entry others ih =>
      obtain ⟨next, after⟩ := entry
      cases transitions with
      | nil => cases hcount
      | cons transition transitions =>
          have hnext : next.inputIndex? = none := by
            obtain ⟨track, rfl⟩ := hlinks next List.mem_cons_self
            exact Link.inputIndex?_pad _
          cases others with
          | nil =>
              cases List.length_eq_zero_iff.mp (Nat.succ.inj hcount)
              show Graph.evaluate? reading [transitionStage transition input next finalPad] carried = _
              rw [Graph.evaluate?_cons, evaluate?_transitionStage transition finalPad htake hnext]
              rfl
          | cons second others =>
              cases transitions with
              | nil => cases hcount
              | cons later transitions =>
                  have hlinks' : ∀ pad ∈ Carried.pads (second :: others), ∃ track, (Link.chain track).pad = pad :=
                    fun pad hpad => hlinks pad (List.mem_cons_of_mem _ hpad)
                  have hfold : (Link.fold number).pad ∉ Carried.pads (second :: others) := by
                    intro hmem
                    obtain ⟨track, htrack⟩ := hlinks' _ hmem
                    cases Link.pad_injective htrack
                  -- what has been joined is carried behind the links that are still to be joined
                  have htake' : Carried.take? reading ((second :: others) ++ [((Link.fold number).pad,
                      reading.result [transitionEffect transition] [first, after])]) (Link.fold number).pad =
                      some (reading.result [transitionEffect transition] [first, after], second :: others) :=
                    Carried.take?_concat _ (Link.inputIndex?_pad (.fold number)) hfold
                  have ih := ih htake' (List.cons_ne_nil _ _) (Nat.succ.inj hcount) hlinks' (number + 1)
                  show Graph.evaluate? reading (joinFrom input number ((next, transition) :: (second.1, later) ::
                    (Carried.pads others).zip transitions)) carried = _
                  rw [joinFrom_cons_cons, Graph.evaluate?_cons,
                    evaluate?_transitionStage transition (foldPad number) htake hnext]
                  exact ih

/-- The links of so many transitions, the first of which has a given number. -/
def joinLinks (number : Nat) : Nat → List Link
  | 0 => []
  | 1 => [.final]
  | count + 2 => .fold number :: joinLinks (number + 1) (count + 1)

theorem mem_joinLinks {number count : Nat} {link : Link} (h : link ∈ joinLinks number count) :
    link = .final ∨ ∃ later, number ≤ later ∧ link = .fold later := by
  induction count generalizing number with
  | zero => cases h
  | succ count ih =>
      cases count with
      | zero => exact Or.inl (List.mem_singleton.mp h)
      | succ count =>
          rcases List.mem_cons.mp h with rfl | h
          · exact Or.inr ⟨number, Nat.le_refl _, rfl⟩
          · rcases ih h with hfinal | ⟨later, hlater, hfold⟩
            · exact Or.inl hfinal
            · exact Or.inr ⟨later, Nat.le_of_succ_le hlater, hfold⟩

theorem nodup_joinLinks (number count : Nat) : (joinLinks number count).Nodup := by
  induction count generalizing number with
  | zero => exact List.nodup_nil
  | succ count ih =>
      cases count with
      | zero => exact List.nodup_singleton _
      | succ count =>
          refine List.nodup_cons.mpr ⟨fun hmem => ?_, ih (number + 1)⟩
          rcases mem_joinLinks hmem with hfinal | ⟨later, hlater, hfold⟩
          · cases hfinal
          · cases hfold
            exact Nat.not_succ_le_self _ hlater

theorem outputs_joinFrom (input : Pad) (number : Nat) (entries : List (Pad × Transition α)) :
    (joinFrom input number entries).outputs = (joinLinks number entries.length).map Link.pad := by
  induction entries generalizing input number with
  | nil => rfl
  | cons entry entries ih =>
      cases entries with
      | nil => rfl
      | cons second entries =>
          rw [joinFrom_cons_cons, Graph.outputs_cons, ih]
          rfl

/-- Transitions read links only. -/
theorem sources_joinFrom {input : Pad} {number : Nat} {entries : List (Pad × Transition α)}
    (hinput : input.inputIndex? = none) (hentries : ∀ entry ∈ entries, entry.1.inputIndex? = none) :
    (joinFrom input number entries).sources = [] := by
  induction entries generalizing input number with
  | nil => rfl
  | cons entry entries ih =>
      have hstage : [input, entry.1].filterMap Pad.inputIndex? = [] := by
        rw [List.filterMap_cons_none hinput, List.filterMap_cons_none (hentries entry List.mem_cons_self),
          List.filterMap_nil]
      have ih := @ih (Link.fold number).pad (number + 1) (Link.inputIndex?_pad (.fold number))
        fun entry hentry => hentries entry (List.mem_cons_of_mem _ hentry)
      cases entries with
      | nil =>
          rw [joinFrom, Graph.sources_cons]
          exact (List.append_nil _).trans hstage
      | cons second entries =>
          rw [joinFrom_cons_cons, Graph.sources_cons]
          exact congrArg₂ (· ++ ·) hstage ih

theorem filters_joinFrom {input : Pad} {number : Nat} {entries : List (Pad × Transition α)} :
    ∀ stage ∈ joinFrom input number entries, stage.filters ≠ [] := by
  induction entries generalizing input number with
  | nil => nofun
  | cons entry entries ih =>
      intro stage hstage
      cases entries with
      | nil =>
          rw [List.mem_singleton.mp hstage]
          exact List.cons_ne_nil _ _
      | cons second entries =>
          rcases List.mem_cons.mp hstage with rfl | hstage
          · exact List.cons_ne_nil _ _
          · exact ih stage hstage

end Transitions

/-! ### The chains -/

section Chains

variable [Decibels α] (options : Chain.Options α)

/-- The chains of tracks, each with the engine input that its source is. -/
def chainsOf (entries : List (Track α × Nat)) : List (Chain (Effect α)) :=
  entries.map fun entry => Chain.ofTrack options entry.2 entry.1

/-- What chains leave open. -/
def heard (entries : List (Track α × Nat)) : Carried (Signal α) :=
  entries.map fun entry => (Chain.outputPad entry.2, entry.1.signal options entry.2)

theorem flatMap_stages_cons (entry : Track α × Nat) (entries : List (Track α × Nat)) :
    (chainsOf options (entry :: entries)).flatMap Chain.stages =
      stagesTo options entry.2 entry.1 (Chain.outputPad entry.2) ++
        (chainsOf options entries).flatMap Chain.stages := by
  rw [chainsOf, List.map_cons, List.flatMap_cons, Chain.stages_ofTrack]
  rfl

/-- Chains one after the other leave what is heard of their tracks. -/
theorem evaluate?_chainsOf {carried : Carried (Signal α)} {entries : List (Track α × Nat)}
    (hlinks : ∀ pad ∈ carried.pads, ∃ track, (Link.chain track).pad = pad)
    (hword : ∀ entry ∈ entries, entry.1.kept ≠ [] → entry.2 < 2 ^ 64) :
    Graph.evaluate? Signal.reading ((chainsOf options entries).flatMap Chain.stages) carried =
      some (carried ++ heard options entries) := by
  induction entries generalizing carried with
  | nil =>
      rw [heard, List.map_nil, List.append_nil]
      rfl
  | cons entry entries ih =>
      have hunused : Unused entry.2 carried := by
        intro part hmem
        obtain ⟨track, htrack⟩ := hlinks _ hmem
        cases Link.pad_injective htrack
      have hchain := Chain.evaluate?_stagesTo options (Chain.outputPad entry.2) hunused
        (hword entry List.mem_cons_self)
      have hlinks' : ∀ pad ∈ Carried.pads (carried ++ [(Chain.outputPad entry.2, entry.1.signal options entry.2)]),
          ∃ track, (Link.chain track).pad = pad := by
        intro pad hpad
        rw [Carried.pads, List.map_append, List.mem_append] at hpad
        rcases hpad with hpad | hpad
        · exact hlinks pad hpad
        · exact ⟨entry.2, (List.mem_singleton.mp hpad).symm⟩
      have ih := ih hlinks' fun entry hentry => hword entry (List.mem_cons_of_mem _ hentry)
      rw [flatMap_stages_cons, Graph.evaluate?_append, hchain, Option.bind_some, ih, List.append_assoc]
      rfl

def chainLinks (entry : Track α × Nat) : List Link :=
  (Chain.parts entry.1).map (Link.inside entry.2) ++ [.chain entry.2]

theorem track?_of_mem_chainLinks {entry : Track α × Nat} {link : Link} (h : link ∈ chainLinks entry) :
    link.track? = some entry.2 := by
  rcases List.mem_append.mp h with h | h
  · obtain ⟨part, -, rfl⟩ := List.mem_map.mp h
    rfl
  · rw [List.mem_singleton.mp h]
    rfl

theorem nodup_inside_concat (entry : Track α × Nat) {last : Link} (hlast : ∀ part, last ≠ .inside entry.2 part) :
    ((Chain.parts entry.1).map (Link.inside entry.2) ++ [last]).Nodup := by
  refine List.nodup_append'.mpr ⟨?_, List.nodup_singleton _, ?_⟩
  · exact (Chain.nodup_parts entry.1).map fun _ _ h => by simpa using h
  · intro link hlink hother
    obtain ⟨part, -, rfl⟩ := List.mem_map.mp hlink
    exact hlast part (List.mem_singleton.mp hother).symm

theorem outputs_chainsOf (entries : List (Track α × Nat)) :
    Graph.outputs ((chainsOf options entries).flatMap Chain.stages) =
      (entries.flatMap chainLinks).map Link.pad := by
  induction entries with
  | nil => rfl
  | cons entry entries ih =>
      rw [flatMap_stages_cons, Graph.outputs_append, Chain.outputs_stagesTo, ih, List.flatMap_cons,
        List.map_append, chainLinks, List.map_append, List.map_map]
      rfl

/-- Distinct tracks have distinct links. -/
theorem nodup_flatMap_chainLinks {entries : List (Track α × Nat)} (hdistinct : (entries.map Prod.snd).Nodup) :
    (entries.flatMap chainLinks).Nodup := by
  refine List.nodup_flatMap.mpr ⟨fun entry _ => nodup_inside_concat entry nofun, ?_⟩
  refine (List.pairwise_map.mp hdistinct).imp fun hne => ?_
  intro link hlink hother
  have htrack := track?_of_mem_chainLinks hlink
  rw [track?_of_mem_chainLinks hother] at htrack
  exact hne (Option.some.inj htrack).symm

/-- The chains read the sources of the tracks that have kept parts. -/
theorem sources_chainsOf {entries : List (Track α × Nat)}
    (hword : ∀ entry ∈ entries, entry.1.kept ≠ [] → entry.2 < 2 ^ 64) :
    Graph.sources ((chainsOf options entries).flatMap Chain.stages) =
      (entries.filter fun entry => !entry.1.kept.isEmpty).map Prod.snd := by
  induction entries with
  | nil => rfl
  | cons entry entries ih =>
      have ih := ih fun entry hentry => hword entry (List.mem_cons_of_mem _ hentry)
      rw [flatMap_stages_cons, Graph.sources_append, ih,
        Chain.sources_stagesTo options _ _ (hword entry List.mem_cons_self)]
      cases hkept : entry.1.kept with
      | nil =>
          rw [if_pos rfl, List.nil_append, List.filter_cons_of_neg (by simp [hkept])]
      | cons first others =>
          rw [if_neg (List.cons_ne_nil _ _), List.filter_cons_of_pos (by simp [hkept]), List.map_cons]
          rfl

theorem filters_chainsOf {entries : List (Track α × Nat)}
    (hrates : ∀ entry ∈ entries, ∀ rate ∈ entry.1.tempoRate, Scalar.isFinite rate = true) :
    ∀ stage ∈ (chainsOf options entries).flatMap Chain.stages, stage.filters ≠ [] := by
  intro stage hstage
  obtain ⟨chain, hchain, hstage⟩ := List.mem_flatMap.mp hstage
  obtain ⟨entry, hentry, rfl⟩ := List.mem_map.mp hchain
  rw [Chain.stages_ofTrack] at hstage
  exact Chain.filters_stagesTo (hrates entry hentry) stage hstage

omit [Decibels α] in
theorem joinedBy_reading (first : Signal α) (rest : List (Signal α × Transition α)) :
    joinedBy Signal.reading first rest = first.mixed rest := by
  have hstep : ∀ (before : Signal α) (entry : Signal α × Transition α),
      Signal.reading.result [transitionEffect entry.2] [before, entry.1] = before.transition entry.2 entry.1 := by
    intro before entry
    rw [transitionEffect, Signal.transition]
    split
    · exact Signal.result_reading _ (by simp)
    · exact Signal.result_reading _ (by simp)
  rw [joinedBy, Signal.mixed]
  exact List.foldl_ext _ _ _ fun before entry _ => hstep before entry

omit [Scalar α] [Decibels α] in
theorem relabelLast_concat (old new input : Pad) (body : Graph (Effect α)) (effects : List (Effect α)) :
    Graph.relabelLast old new (body ++ [Stage.between input effects old]) =
      body ++ [Stage.between input effects new] := by
  rw [Graph.relabelLast, List.reverse_append, List.reverse_singleton, List.singleton_append, Graph.relabelFirst,
    if_pos (by simp [Stage.between])]
  simp [Stage.between]

/-- A chain that is renamed ends where its new name says. -/
theorem stages_relabel_ofTrack (index : Nat) (track : Track α) (output : Pad) :
    ((Chain.ofTrack options index track).relabel output).stages = stagesTo options index track output := by
  rw [Chain.relabel, Chain.stages_ofTrack, stagesTo, stagesTo, ← List.append_assoc, ← List.append_assoc]
  show Graph.relabelLast (Chain.outputPad index) output _ = _
  rw [relabelLast_concat, List.append_assoc, List.append_assoc]

/-- A single chain is all of its mix, and ends in the final link. -/
theorem stages_assemble_nil (entry : Track α × Nat) (transitions : List (Transition α)) :
    (assemble (Chain.ofTrack options entry.2 entry.1) (chainsOf options []) transitions).stages =
      stagesTo options entry.2 entry.1 finalPad := by
  show [(Chain.ofTrack options entry.2 entry.1).relabel finalPad].flatMap Chain.stages ++ [] = _
  rw [List.append_nil, List.flatMap_singleton, stages_relabel_ofTrack]

theorem stages_assemble_cons (entry second : Track α × Nat) (others : List (Track α × Nat))
    (transitions : List (Transition α)) :
    (assemble (Chain.ofTrack options entry.2 entry.1) (chainsOf options (second :: others)) transitions).stages =
      (chainsOf options (entry :: second :: others)).flatMap Chain.stages ++
        joinFrom (Chain.outputPad entry.2) 1
          (((chainsOf options (second :: others)).map Chain.output).zip transitions) := rfl

/-- The stages of a mix evaluate to the final link, which carries the tracks joined by the
transitions. -/
theorem evaluate?_assemble {entry : Track α × Nat} {others : List (Track α × Nat)}
    {transitions : List (Transition α)} (hcount : transitions.length = others.length)
    (hword : ∀ other ∈ entry :: others, other.1.kept ≠ [] → other.2 < 2 ^ 64) :
    (assemble (Chain.ofTrack options entry.2 entry.1) (chainsOf options others) transitions).stages.evaluate?
        Signal.reading [] =
      some [(finalPad, (entry.1.signal options entry.2).mixed ((others.map fun other =>
        other.1.signal options other.2).zip transitions))] := by
  cases others with
  | nil =>
      have hunused : Unused entry.2 ([] : Carried (Signal α)) := fun _ => List.not_mem_nil
      rw [stages_assemble_nil, Chain.evaluate?_stagesTo options finalPad hunused (hword entry List.mem_cons_self)]
      rfl
  | cons second others =>
      have hchains : Graph.evaluate? Signal.reading
          ((chainsOf options (entry :: second :: others)).flatMap Chain.stages) [] =
          some ([] ++ heard options (entry :: second :: others)) := evaluate?_chainsOf options nofun hword
      have htake : Carried.take? Signal.reading (heard options (entry :: second :: others))
          (Chain.outputPad entry.2) =
          some (entry.1.signal options entry.2, heard options (second :: others)) :=
        Carried.take?_cons _ (Link.inputIndex?_pad (.chain entry.2))
      have hpads : Carried.pads (heard options (second :: others)) =
          (chainsOf options (second :: others)).map Chain.output := by
        rw [Carried.pads, heard, chainsOf, List.map_map, List.map_map]
        rfl
      have hlinks : ∀ pad ∈ Carried.pads (heard options (second :: others)),
          ∃ track, (Link.chain track).pad = pad := by
        intro pad hpad
        rw [Carried.pads, heard, List.map_map] at hpad
        obtain ⟨other, -, rfl⟩ := List.mem_map.mp hpad
        exact ⟨other.2, rfl⟩
      have hlength : transitions.length = (heard options (second :: others)).length := by
        rw [hcount, heard, List.length_map]
      have hsignals : (heard options (second :: others)).map Prod.snd =
          (second :: others).map fun other => other.1.signal options other.2 := by
        rw [heard, List.map_map]
        rfl
      have hjoin := evaluate?_joinFrom htake (List.cons_ne_nil _ _) hlength hlinks 1
      rw [hpads, joinedBy_reading, hsignals] at hjoin
      rw [stages_assemble_cons, Graph.evaluate?_append, hchains, Option.bind_some, List.nil_append]
      exact hjoin

omit [Scalar α] [Decibels α] in
/-- Stages that make distinct links of a mix and evaluate to one of them pass the check of their
labels. -/
theorem output_of_links {graph : Graph (Effect α)} {links : List Link} {count : Nat} {pad : Pad} {signal : Signal α}
    (hevaluate : graph.evaluate? Signal.reading [] = some [(pad, signal)])
    (hfilters : ∀ stage ∈ graph, stage.filters ≠ []) (houtputs : graph.outputs = links.map Link.pad)
    (hlinks : links.Nodup) (hsources : graph.sources.Nodup) (hrange : ∀ index ∈ graph.sources, index < count) :
    graph.output count = .ok pad := by
  refine Graph.output_of_evaluate? hevaluate hfilters ?_ ?_ hsources hrange
  · rw [houtputs]
    exact hlinks.map fun _ _ => Link.pad_injective
  · intro pad hpad
    rw [houtputs] at hpad
    obtain ⟨link, -, rfl⟩ := List.mem_map.mp hpad
    exact Link.isInput_pad link

/-- The stages of a mix of distinct tracks pass the check of their labels. -/
theorem output_assemble {entry : Track α × Nat} {others : List (Track α × Nat)} {transitions : List (Transition α)}
    {count : Nat} (hcount : transitions.length = others.length)
    (hdistinct : ((entry :: others).map Prod.snd).Nodup)
    (hrange : ∀ other ∈ entry :: others, other.1.kept ≠ [] → other.2 < count) (hword : count ≤ 2 ^ 64)
    (hrates : ∀ other ∈ entry :: others, ∀ rate ∈ other.1.tempoRate, Scalar.isFinite rate = true) :
    Graph.output (assemble (Chain.ofTrack options entry.2 entry.1) (chainsOf options others) transitions).stages
      count = .ok finalPad := by
  have hword' : ∀ other ∈ entry :: others, other.1.kept ≠ [] → other.2 < 2 ^ 64 := fun other hother hkept =>
    Nat.lt_of_lt_of_le (hrange other hother hkept) hword
  have hevaluate := evaluate?_assemble options hcount hword'
  cases others with
  | nil =>
      rw [stages_assemble_nil] at hevaluate ⊢
      have hsources := Chain.sources_stagesTo options entry.1 finalPad (hword' entry List.mem_cons_self)
      have hfinal : ∀ part, Link.final ≠ .inside entry.2 part := nofun
      refine output_of_links hevaluate (Chain.filters_stagesTo (hrates entry List.mem_cons_self)) ?_
        (nodup_inside_concat entry hfinal) ?_ ?_
      · rw [Chain.outputs_stagesTo, List.map_append, List.map_map]
        rfl
      · rw [hsources]
        split
        · exact List.nodup_nil
        · exact List.nodup_singleton _
      · intro index hindex
        rw [hsources] at hindex
        split at hindex
        · cases hindex
        · rename_i hkept
          rw [List.mem_singleton.mp hindex]
          exact hrange entry List.mem_cons_self hkept
  | cons second others =>
      rw [stages_assemble_cons] at hevaluate ⊢
      have hjoin : (joinFrom (Chain.outputPad entry.2) 1
          (((chainsOf options (second :: others)).map Chain.output).zip transitions)).sources = [] := by
        refine sources_joinFrom (Link.inputIndex?_pad (.chain entry.2)) fun item hitem => ?_
        obtain ⟨chain, hchain, hpad⟩ := List.mem_map.mp (List.of_mem_zip hitem).1
        obtain ⟨other, -, rfl⟩ := List.mem_map.mp hchain
        rw [← hpad]
        exact Link.inputIndex?_pad (.chain other.2)
      have hsources := sources_chainsOf options hword'
      have hlinks : ((entry :: second :: others).flatMap chainLinks ++
          joinLinks 1 (((chainsOf options (second :: others)).map Chain.output).zip transitions).length).Nodup := by
        refine List.nodup_append'.mpr ⟨nodup_flatMap_chainLinks hdistinct, nodup_joinLinks _ _, ?_⟩
        intro link hlink hother
        obtain ⟨other, -, hlink⟩ := List.mem_flatMap.mp hlink
        have htrack := track?_of_mem_chainLinks hlink
        rcases mem_joinLinks hother with rfl | ⟨later, -, rfl⟩ <;> cases htrack
      refine output_of_links hevaluate ?_ ?_ hlinks ?_ ?_
      · intro stage hstage
        rcases List.mem_append.mp hstage with hstage | hstage
        · exact filters_chainsOf options hrates stage hstage
        · exact filters_joinFrom stage hstage
      · rw [Graph.outputs_append, outputs_chainsOf, outputs_joinFrom, List.map_append]
      · rw [Graph.sources_append, hjoin, List.append_nil, hsources]
        exact hdistinct.sublist (List.filter_sublist.map _)
      · intro index hindex
        rw [Graph.sources_append, hjoin, List.append_nil, hsources] at hindex
        obtain ⟨other, hother, rfl⟩ := List.mem_map.mp hindex
        obtain ⟨hother, hkept⟩ := List.mem_filter.mp hother
        exact hrange other hother (by simpa using hkept)

omit [Decibels α] in
/-- Chains are made into a graph when its check finds the output that they were assembled for. -/
theorem ofChains_cons {first : Chain (Effect α)} {others : List (Chain (Effect α))}
    {transitions : List (Transition α)}
    (hcount : transitions.length = others.length)
    (houtput : Graph.output (assemble first others transitions).stages (others.length + 1) =
      .ok (assemble first others transitions).output) :
    ofChains (first :: others) transitions = .ok (assemble first others transitions) := by
  rw [ofChains, if_neg (not_not_intro hcount), List.length_cons]
  show (Graph.output _ _).bind _ = _
  rw [houtput]
  exact if_pos rfl

omit [Decibels α] in
/-- A graph is what its chains and transitions were assembled into. -/
theorem assemble_of_ofChains {chains : List (Chain (Effect α))} {transitions : List (Transition α)}
    {mix : MixGraph (Effect α)} (h : ofChains chains transitions = .ok mix) :
    ∃ first others, chains = first :: others ∧ transitions.length = others.length ∧
      mix = assemble first others transitions := by
  cases chains with
  | nil => cases h
  | cons first others =>
      by_cases hcount : transitions.length = others.length
      · rw [ofChains, if_neg (not_not_intro hcount)] at h
        change (Graph.output _ _).bind _ = _ at h
        cases hfound : Graph.output (assemble first others transitions).stages (first :: others).length with
        | error error =>
            rw [hfound] at h
            cases h
        | ok found =>
            rw [hfound] at h
            change (if found = (assemble first others transitions).output then _ else _) = _ at h
            split at h
            · cases h
              exact ⟨first, others, rfl, hcount, rfl⟩
            · cases h
      · rw [ofChains, if_pos hcount] at h
        cases h

/-- Chains of distinct tracks and one transition between each two make a graph. -/
theorem ofChains_chainsOf_cons {entry : Track α × Nat} {others : List (Track α × Nat)}
    {transitions : List (Transition α)} (hcount : transitions.length = others.length)
    (hdistinct : ((entry :: others).map Prod.snd).Nodup)
    (hrange : ∀ other ∈ entry :: others, other.1.kept ≠ [] → other.2 < (entry :: others).length)
    (hword : (entry :: others).length ≤ 2 ^ 64)
    (hrates : ∀ other ∈ entry :: others, ∀ rate ∈ other.1.tempoRate, Scalar.isFinite rate = true) :
    ofChains (chainsOf options (entry :: others)) transitions =
      .ok (assemble (Chain.ofTrack options entry.2 entry.1) (chainsOf options others) transitions) := by
  have houtput := output_assemble options hcount hdistinct hrange hword hrates
  have hpad : (assemble (Chain.ofTrack options entry.2 entry.1) (chainsOf options others) transitions).output =
      finalPad := by
    rw [assemble]
    split <;> rfl
  refine ofChains_cons (hcount.trans (List.length_map _).symm) ?_
  rw [List.length_map]
  exact houtput.trans (congrArg _ hpad.symm)

/-- The stages of such a graph in order leave the final link open and nothing else, and what it
carries is the tracks joined by the transitions. -/
theorem ofChains_chainsOf {entries : List (Track α × Nat)} {transitions : List (Transition α)}
    (hcount : transitions.length + 1 = entries.length) (hdistinct : (entries.map Prod.snd).Nodup)
    (hrange : ∀ entry ∈ entries, entry.1.kept ≠ [] → entry.2 < entries.length)
    (hword : entries.length ≤ 2 ^ 64)
    (hrates : ∀ entry ∈ entries, ∀ rate ∈ entry.1.tempoRate, Scalar.isFinite rate = true) :
    ∃ mix signal, ofChains (chainsOf options entries) transitions = .ok mix ∧
      Signal.mixed? (entries.map fun entry => entry.1.signal options entry.2) transitions = some signal ∧
      mix.stages.evaluate? Signal.reading [] = some [(finalPad, signal)] := by
  cases entries with
  | nil => cases hcount
  | cons entry others =>
      have hcount : transitions.length = others.length := Nat.succ.inj hcount
      have hword' : ∀ other ∈ entry :: others, other.1.kept ≠ [] → other.2 < 2 ^ 64 := fun other hother hkept =>
        Nat.lt_of_lt_of_le (hrange other hother hkept) hword
      exact ⟨_, _, ofChains_chainsOf_cons options hcount hdistinct hrange hword hrates, rfl,
        evaluate?_assemble options hcount hword'⟩

end Chains

end MixGraph

end Segue
