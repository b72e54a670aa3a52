import Mathlib.Data.List.Nodup
import Segue.Graph.Check

/-!
Reading a graph. A reading says what the engine inputs carry and what the filters of a stage make of
what its inputs carry; stages are then evaluated in order, each of them using its inputs up. Main
statement: a graph that evaluates to one link passes the check of its labels, as long as its stages
have filters, its outputs are distinct links and no engine input is read twice.
-/

namespace Segue

/-- What the engine inputs carry, and what filters make of what they are given. -/
structure Reading (φ δ : Type) where
  source : Nat → δ
  result : List φ → List δ → δ

/-- The open links and what they carry, in the order they are produced in. -/
abbrev Carried (δ : Type) := List (Pad × δ)

namespace Carried

variable {φ δ : Type}

def pads (carried : Carried δ) : List Pad := carried.map Prod.fst

/-- Takes what a pad carries; a link is used up by that. -/
def take? (reading : Reading φ δ) (carried : Carried δ) (pad : Pad) : Option (δ × Carried δ) :=
  match pad.inputIndex? with
  | some index => some (reading.source index, carried)
  | none => (carried.lookup pad).map fun value => (value, carried.eraseP (·.1 == pad))

def takeAll? (reading : Reading φ δ) (carried : Carried δ) : List Pad → Option (List δ × Carried δ)
  | [] => some ([], carried)
  | pad :: rest => do
    let (value, carried) ← carried.take? reading pad
    let (values, carried) ← takeAll? reading carried rest
    return (value :: values, carried)

end Carried

/-- The links that are open behind a stage: each output carries what the filters make of the inputs. -/
def Stage.evaluate? {φ δ : Type} (reading : Reading φ δ) (carried : Carried δ) (stage : Stage φ) :
    Option (Carried δ) := do
  let (values, carried) ← carried.takeAll? reading stage.inputs
  return carried ++ stage.outputs.map fun output => (output, reading.result stage.filters values)

/-- The links that are open behind all stages of a graph. -/
def Graph.evaluate? {φ δ : Type} (reading : Reading φ δ) (graph : Graph φ) (carried : Carried δ) :
    Option (Carried δ) := graph.foldlM (Stage.evaluate? reading) carried

section Evaluation

variable {φ δ : Type} {reading : Reading φ δ} {carried : Carried δ}

theorem Graph.evaluate?_cons (stage : Stage φ) (rest : Graph φ) :
    Graph.evaluate? reading (stage :: rest) carried =
      (stage.evaluate? reading carried).bind (Graph.evaluate? reading rest) := by
  rw [evaluate?, List.foldlM_cons]
  rfl

theorem Graph.evaluate?_append (first second : Graph φ) :
    Graph.evaluate? reading (first ++ second) carried =
      (Graph.evaluate? reading first carried).bind (Graph.evaluate? reading second) := by
  rw [evaluate?, List.foldlM_append]
  rfl

namespace Carried

theorem take?_input {pad : Pad} {index : Nat} (h : pad.inputIndex? = some index) :
    carried.take? reading pad = some (reading.source index, carried) := by
  rw [take?, h]

/-- A link is taken from behind others with other pads. -/
theorem take?_append {before after : Carried δ} {pad : Pad} {value : δ} (hpad : pad.inputIndex? = none)
    (hfresh : pad ∉ before.pads) :
    Carried.take? reading (before ++ (pad, value) :: after) pad = some (value, before ++ after) := by
  have hne : ∀ entry ∈ before, entry.1 ≠ pad := by
    rintro entry hentry rfl
    exact hfresh (List.mem_map_of_mem hentry)
  have hlookup : before.lookup pad = none := by
    rw [List.lookup_eq_none_iff]
    intro entry hentry
    simpa using (hne entry hentry).symm
  have herase : (before ++ (pad, value) :: after).eraseP (·.1 == pad) = before ++ after := by
    rw [List.eraseP_append_right _ (by simpa using hne), List.eraseP_cons_of_pos (by simp)]
  rw [take?, hpad, List.lookup_append, hlookup, List.lookup_cons_self]
  simp [herase]

/-- The link that was opened last is taken from behind all others. -/
theorem take?_concat {pad : Pad} (value : δ) (hpad : pad.inputIndex? = none) (hfresh : pad ∉ carried.pads) :
    Carried.take? reading (carried ++ [(pad, value)]) pad = some (value, carried) := by
  rw [take?_append hpad hfresh, List.append_nil]

/-- The link that has been open the longest is taken. -/
theorem take?_cons {pad : Pad} (value : δ) (hpad : pad.inputIndex? = none) :
    Carried.take? reading ((pad, value) :: carried) pad = some (value, carried) := by
  have hfresh : pad ∉ pads ([] : Carried δ) := List.not_mem_nil
  exact take?_append hpad hfresh

theorem takeAll?_cons {pad : Pad} {pads : List Pad} {value : δ} {rest : Carried δ}
    (h : carried.take? reading pad = some (value, rest)) :
    carried.takeAll? reading (pad :: pads) =
      (rest.takeAll? reading pads).map fun (values, left) => (value :: values, left) := by
  rw [takeAll?, h]
  show (rest.takeAll? reading pads).bind _ = _
  cases rest.takeAll? reading pads <;> rfl

variable (reading) in
/-- Links are taken together from behind others with other pads. -/
theorem takeAll?_append (before entries after : Carried δ) (hlinks : ∀ pad ∈ entries.pads, pad.inputIndex? = none)
    (hfresh : ∀ pad ∈ entries.pads, pad ∉ before.pads) :
    Carried.takeAll? reading (before ++ entries ++ after) entries.pads =
      some (entries.map Prod.snd, before ++ after) := by
  induction entries with
  | nil => simp [pads, takeAll?]
  | cons entry entries ih =>
      obtain ⟨pad, value⟩ := entry
      have htake : Carried.take? reading (before ++ (pad, value) :: (entries ++ after)) pad =
          some (value, before ++ (entries ++ after)) :=
        take?_append (hlinks pad (by simp [pads])) (hfresh pad (by simp [pads]))
      have ih := ih (fun pad h => hlinks pad (List.mem_cons_of_mem _ h))
        (fun pad h => hfresh pad (List.mem_cons_of_mem _ h))
      rw [List.append_assoc] at ih
      rw [List.append_assoc, List.cons_append]
      show takeAll? reading _ (pad :: pads entries) = _
      rw [takeAll?_cons htake, ih]
      rfl

end Carried

end Evaluation

namespace Graph

def outputs {φ : Type} (graph : Graph φ) : List Pad := graph.flatMap Stage.outputs

/-- The engine inputs that the stages read, in order. -/
def sources {φ : Type} (graph : Graph φ) : List Nat :=
  (graph.flatMap Stage.inputs).filterMap Pad.inputIndex?

theorem outputs_cons {φ : Type} (stage : Stage φ) (rest : Graph φ) :
    outputs (stage :: rest) = stage.outputs ++ outputs rest := List.flatMap_cons

theorem outputs_append {φ : Type} (first second : Graph φ) :
    outputs (first ++ second) = outputs first ++ outputs second := List.flatMap_append

theorem sources_cons {φ : Type} (stage : Stage φ) (rest : Graph φ) :
    sources (stage :: rest) = stage.inputs.filterMap Pad.inputIndex? ++ sources rest := by
  rw [sources, List.flatMap_cons, List.filterMap_append]
  rfl

theorem sources_append {φ : Type} (first second : Graph φ) :
    sources (first ++ second) = sources first ++ sources second := by
  rw [sources, List.flatMap_append, List.filterMap_append]
  rfl

namespace Usage

variable {φ δ : Type} {reading : Reading φ δ} {usage : Usage} {carried : Carried δ}

/-- The engine inputs that have been consumed. -/
def sources (usage : Usage) : List Nat := usage.consumed.filterMap Pad.inputIndex?

/-- The check of the labels has seen just the links that the evaluation has. -/
structure Follows (usage : Usage) (carried : Carried δ) : Prop where
  open_eq : usage.open = carried.pads
  produced_nodup : usage.produced.Nodup
  produced_links : ∀ pad ∈ usage.produced, pad.isInput = false
  consumed_supplied : ∀ pad ∈ usage.consumed, pad.isInput = true ∨ pad ∈ usage.produced

theorem open_consume (usage : Usage) (pad : Pad) (hnodup : usage.produced.Nodup) :
    Usage.open { usage with consumed := usage.consumed ++ [pad] } = usage.open.erase pad := by
  rw [Usage.open, Usage.open, (hnodup.filter _).erase_eq_filter, List.filter_filter]
  refine List.filter_congr fun other _ => ?_
  by_cases h : other = pad <;> simp [h]

theorem pads_eraseP (carried : Carried δ) (pad : Pad) :
    Carried.pads (carried.eraseP (·.1 == pad)) = carried.pads.erase pad := by
  rw [List.erase_eq_eraseP, Carried.pads, Carried.pads, List.eraseP_map]
  congr 2
  funext entry
  exact Bool.beq_comm

theorem Follows.consume_one {count : Nat} {pad : Pad} {value : δ} {rest : Carried δ} (stage : Nat)
    (pads : List Pad) (h : usage.Follows carried) (htake : carried.take? reading pad = some (value, rest))
    (hfresh : ∀ index, pad.inputIndex? = some index → index ∉ usage.sources ∧ index < count) :
    Usage.consume count stage usage (pad :: pads) =
        Usage.consume count stage { usage with consumed := usage.consumed ++ [pad] } pads ∧
      Usage.Follows { usage with consumed := usage.consumed ++ [pad] } rest := by
  have hsupplied : (pad.isInput = true ∨ pad ∈ usage.produced) →
      ∀ other ∈ usage.consumed ++ [pad], other.isInput = true ∨ other ∈ usage.produced := by
    intro hpad other hother
    rcases List.mem_append.mp hother with hother | hother
    · exact h.consumed_supplied other hother
    · rw [List.mem_singleton.mp hother]
      exact hpad
  cases hindex : pad.inputIndex? with
  | some index =>
      rw [Carried.take?_input hindex, Option.some.injEq, Prod.mk.injEq] at htake
      obtain ⟨hunread, hrange⟩ := hfresh index hindex
      have hinput : pad.isInput = true := by rw [Pad.isInput, hindex]; rfl
      have hnew : pad ∉ usage.consumed := fun hmem =>
        hunread (List.mem_filterMap.mpr ⟨pad, hmem, hindex⟩)
      have hlink : pad ∉ usage.produced := fun hmem => by simp [h.produced_links pad hmem] at hinput
      refine ⟨?_, ?_, h.produced_nodup, h.produced_links, hsupplied (Or.inl hinput)⟩
      · rw [consume, hindex]
        simp [hnew, Nat.not_le.mpr hrange]
      · have hclosed : pad ∉ usage.open := fun hmem => hlink (List.mem_filter.mp hmem).1
        rw [open_consume usage pad h.produced_nodup, ← htake.2, ← h.open_eq,
          List.erase_of_not_mem hclosed]
  | none =>
      rw [Carried.take?, hindex] at htake
      obtain ⟨_, hlookup, htake⟩ := Option.map_eq_some_iff.mp htake
      rw [Prod.mk.injEq] at htake
      have hmem : pad ∈ usage.open := by
        rw [h.open_eq]
        obtain ⟨before, after, rfl, _⟩ := List.lookup_eq_some_iff.mp hlookup
        simp [Carried.pads]
      obtain ⟨hproduced, hopen⟩ := List.mem_filter.mp hmem
      refine ⟨?_, ?_, h.produced_nodup, h.produced_links, hsupplied (Or.inr hproduced)⟩
      · rw [consume, hindex]
        simp at hopen
        simp [hproduced, hopen]
      · rw [open_consume usage pad h.produced_nodup, ← htake.2, pads_eraseP, h.open_eq]

/-- What can be taken can be consumed. -/
theorem Follows.consume {count : Nat} {pads : List Pad} {values : List δ} {rest : Carried δ} (stage : Nat)
    (h : usage.Follows carried) (htake : carried.takeAll? reading pads = some (values, rest))
    (hsources : (usage.sources ++ pads.filterMap Pad.inputIndex?).Nodup)
    (hrange : ∀ index ∈ pads.filterMap Pad.inputIndex?, index < count) :
    Usage.consume count stage usage pads = .ok { usage with consumed := usage.consumed ++ pads } ∧
      Usage.Follows { usage with consumed := usage.consumed ++ pads } rest := by
  induction pads generalizing usage carried values with
  | nil =>
      rw [Carried.takeAll?, Option.some.injEq, Prod.mk.injEq] at htake
      rw [List.append_nil, ← htake.2]
      exact ⟨rfl, h⟩
  | cons pad pads ih =>
      rw [Carried.takeAll?] at htake
      obtain ⟨⟨value, left⟩, hone, htake⟩ := Option.bind_eq_some_iff.mp htake
      obtain ⟨⟨values', left'⟩, hall, htake⟩ := Option.bind_eq_some_iff.mp htake
      cases htake
      have hfresh : ∀ index, pad.inputIndex? = some index → index ∉ usage.sources ∧ index < count := by
        intro index hindex
        have hmem : index ∈ (pad :: pads).filterMap Pad.inputIndex? := by simp [hindex]
        exact ⟨fun hused => List.disjoint_of_nodup_append hsources hused hmem, hrange index hmem⟩
      obtain ⟨hstep, hfollows⟩ := h.consume_one stage pads hone hfresh
      have hmoved : Usage.sources { usage with consumed := usage.consumed ++ [pad] } ++
          pads.filterMap Pad.inputIndex? = usage.sources ++ (pad :: pads).filterMap Pad.inputIndex? := by
        rw [Usage.sources, Usage.sources, ← List.filterMap_append, ← List.filterMap_append,
          List.append_assoc, List.singleton_append]
      obtain ⟨hrest, hdone⟩ := ih hfollows hall (hmoved ▸ hsources) fun index hmem =>
        hrange index (by
          obtain ⟨other, hother, hindex⟩ := List.mem_filterMap.mp hmem
          exact List.mem_filterMap.mpr ⟨other, List.mem_cons_of_mem _ hother, hindex⟩)
      rw [List.append_assoc, List.singleton_append] at hrest hdone
      exact ⟨hstep.trans hrest, hdone⟩

/-- New links can be produced. -/
theorem produce_eq {outputs : List Pad} (usage : Usage) (hnodup : (usage.produced ++ outputs).Nodup)
    (hlinks : ∀ pad ∈ outputs, pad.isInput = false) :
    usage.produce outputs = .ok { usage with produced := usage.produced ++ outputs } := by
  induction outputs generalizing usage with
  | nil => rw [List.append_nil]; rfl
  | cons pad outputs ih =>
      have hnew : pad ∉ usage.produced := fun hmem =>
        List.disjoint_of_nodup_append hnodup hmem List.mem_cons_self
      rw [List.append_cons] at hnodup
      have ih := ih { usage with produced := usage.produced ++ [pad] } hnodup
        fun other hother => hlinks other (List.mem_cons_of_mem _ hother)
      rw [List.append_assoc, List.singleton_append] at ih
      rw [produce, hlinks pad List.mem_cons_self]
      simpa [hnew] using ih

theorem Follows.produce {outputs : List Pad} (h : usage.Follows carried)
    (hnodup : (usage.produced ++ outputs).Nodup) (hlinks : ∀ pad ∈ outputs, pad.isInput = false)
    (value : δ) :
    Usage.Follows { usage with produced := usage.produced ++ outputs }
      (carried ++ outputs.map fun output => (output, value)) where
  open_eq := by
    have hunused : ∀ pad ∈ outputs, pad ∉ usage.consumed := by
      intro pad hpad hconsumed
      rcases h.consumed_supplied pad hconsumed with hinput | hproduced
      · exact absurd hinput (by simp [hlinks pad hpad])
      · exact List.disjoint_of_nodup_append hnodup hproduced hpad
    have hnew : outputs.filter (fun pad => !usage.consumed.contains pad) = outputs := by
      rw [List.filter_eq_self]
      intro pad hpad
      simpa using hunused pad hpad
    have hpads : Carried.pads (outputs.map fun output => (output, value)) = outputs := by
      simp [Carried.pads, Function.comp_def]
    rw [Usage.open, List.filter_append, hnew, Carried.pads, List.map_append]
    exact congrArg₂ _ h.open_eq hpads.symm
  produced_nodup := hnodup
  produced_links pad hpad := (List.mem_append.mp hpad).elim (h.produced_links pad) (hlinks pad)
  consumed_supplied pad hpad := (h.consumed_supplied pad hpad).imp_right (List.mem_append_left _)

/-- What can be evaluated passes through the check. -/
theorem Follows.run {count : Nat} {graph : Graph φ} {left : Carried δ} (stage : Nat) (h : usage.Follows carried)
    (hevaluate : graph.evaluate? reading carried = some left)
    (hfilters : ∀ stage ∈ graph, stage.filters ≠ [])
    (houtputs : (usage.produced ++ graph.outputs).Nodup)
    (hlinks : ∀ pad ∈ graph.outputs, pad.isInput = false)
    (hsources : (usage.sources ++ graph.sources).Nodup) (hrange : ∀ index ∈ graph.sources, index < count) :
    ∃ after, Usage.run count stage usage graph = .ok after ∧ after.Follows left := by
  induction graph generalizing usage carried stage with
  | nil =>
      cases hevaluate
      exact ⟨usage, rfl, h⟩
  | cons first rest ih =>
      rw [outputs_cons] at houtputs hlinks
      rw [sources_cons] at hsources hrange
      rw [← List.append_assoc] at houtputs hsources
      rw [Graph.evaluate?_cons] at hevaluate
      obtain ⟨middle, hfirst, hevaluate⟩ := Option.bind_eq_some_iff.mp hevaluate
      obtain ⟨⟨values, taken⟩, htake, hmiddle⟩ := Option.bind_eq_some_iff.mp hfirst
      cases hmiddle
      -- the check consumes what the evaluation takes, and then produces what it gives
      obtain ⟨hconsume, hfollows⟩ := h.consume stage htake (List.nodup_append.mp hsources).1
        fun index hindex => hrange index (List.mem_append_left _ hindex)
      have hproduced : (usage.produced ++ first.outputs).Nodup := (List.nodup_append.mp houtputs).1
      have hfirstLinks : ∀ pad ∈ first.outputs, pad.isInput = false := fun pad hpad =>
        hlinks pad (List.mem_append_left _ hpad)
      have hread' : Usage.sources { usage with consumed := usage.consumed ++ first.inputs } =
          usage.sources ++ first.inputs.filterMap Pad.inputIndex? := List.filterMap_append
      obtain ⟨after, hrun, hafter⟩ := ih (stage + 1)
        (hfollows.produce hproduced hfirstLinks (reading.result first.filters values)) hevaluate
        (fun stage hstage => hfilters stage (List.mem_cons_of_mem _ hstage)) houtputs
        (fun pad hpad => hlinks pad (List.mem_append_right _ hpad)) (hread' ▸ hsources)
        fun index hindex => hrange index (List.mem_append_right _ hindex)
      refine ⟨after, ?_, hafter⟩
      have hproduce := produce_eq { usage with consumed := usage.consumed ++ first.inputs }
        hproduced hfirstLinks
      rw [Usage.run, if_neg (by simpa using hfilters first List.mem_cons_self), hconsume]
      show (Usage.produce _ first.outputs).bind _ = _
      rw [hproduce]
      exact hrun

end Usage

/-- A graph that evaluates to one link passes the check of its labels. -/
theorem output_of_evaluate? {φ δ : Type} {reading : Reading φ δ} {graph : Graph φ} {count : Nat} {pad : Pad}
    {value : δ} (hevaluate : graph.evaluate? reading [] = some [(pad, value)])
    (hfilters : ∀ stage ∈ graph, stage.filters ≠ []) (houtputs : graph.outputs.Nodup)
    (hlinks : ∀ pad ∈ graph.outputs, pad.isInput = false) (hsources : graph.sources.Nodup)
    (hrange : ∀ index ∈ graph.sources, index < count) : graph.output count = .ok pad := by
  have hstart : Usage.Follows {} ([] : Carried δ) := ⟨rfl, List.nodup_nil, nofun, nofun⟩
  obtain ⟨usage, hrun, hfollows⟩ := hstart.run 0 hevaluate hfilters houtputs hlinks hsources hrange
  have hopen : usage.open = [pad] := hfollows.open_eq
  simp only [output, hrun, bind, Except.bind, hopen]

end Graph

end Segue
