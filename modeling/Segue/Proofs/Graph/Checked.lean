import Segue.Proofs.Graph.Evaluation

/-!
What the check of its labels accepts, one part of it after the other. Main statement: the stages
pass just when each has a filter and is supplied by those in front of it, and no pad is consumed
twice or produced twice. So a pad has one reader at most.
-/

namespace Segue

/-- A pad that can be consumed: an engine input among so many, or one of the links that are there. -/
def Pad.IsSupplied (count : Nat) (produced : List Pad) (pad : Pad) : Prop :=
  match pad.inputIndex? with
  | some index => index < count
  | none => pad ∈ produced

theorem Pad.isSupplied_of_input {count : Nat} {produced : List Pad} {pad : Pad} {index : Nat}
    (h : pad.inputIndex? = some index) : pad.IsSupplied count produced ↔ index < count := by
  rw [IsSupplied, h]

theorem Pad.isSupplied_of_link {count : Nat} {produced : List Pad} {pad : Pad} (h : pad.inputIndex? = none) :
    pad.IsSupplied count produced ↔ pad ∈ produced := by
  rw [IsSupplied, h]

/-- As long as no link is taken for an engine input, a pad is supplied as one or as the other. -/
theorem Pad.isSupplied_iff {count : Nat} {produced : List Pad} (hlinks : ∀ pad ∈ produced, pad.inputIndex? = none)
    (pad : Pad) :
    pad.IsSupplied count produced ↔ (∃ index, pad.inputIndex? = some index ∧ index < count) ∨ pad ∈ produced := by
  cases hindex : pad.inputIndex? with
  | none => simp [isSupplied_of_link hindex]
  | some index =>
      have hnot : pad ∉ produced := by
        intro hmem
        rw [hlinks pad hmem] at hindex
        cases hindex
      simp [isSupplied_of_input hindex, hnot]

theorem forall_getElem?_cons {α : Type} {p : Nat → α → Prop} {first : α} {rest : List α} :
    (∀ place item, (first :: rest)[place]? = some item → p place item) ↔
      p 0 first ∧ ∀ place item, rest[place]? = some item → p (place + 1) item := by
  constructor
  · exact fun h => ⟨h 0 first rfl, fun place item hitem => h (place + 1) item hitem⟩
  · rintro ⟨hfirst, hrest⟩ place item hitem
    cases place with
    | zero =>
        cases hitem
        exact hfirst
    | succ place => exact hrest place item hitem

namespace Graph

variable {φ : Type}

def inputs (graph : Graph φ) : List Pad := graph.flatMap Stage.inputs

theorem inputs_cons (stage : Stage φ) (rest : Graph φ) : inputs (stage :: rest) = stage.inputs ++ inputs rest :=
  List.flatMap_cons

/-- What comes out of some of the first stages comes out of one of them. -/
theorem mem_outputs_take {graph : Graph φ} {place : Nat} {pad : Pad} :
    pad ∈ outputs (graph.take place) ↔
      ∃ earlier < place, ∃ stage : Stage φ, graph[earlier]? = some stage ∧ pad ∈ stage.outputs := by
  rw [outputs, List.mem_flatMap]
  constructor
  · rintro ⟨stage, hstage, hpad⟩
    obtain ⟨earlier, hearlier⟩ := List.mem_iff_getElem?.mp hstage
    rw [List.getElem?_take] at hearlier
    split at hearlier
    · exact ⟨earlier, ‹_›, stage, hearlier, hpad⟩
    · cases hearlier
  · rintro ⟨earlier, hlt, stage, hstage, hpad⟩
    exact ⟨stage, List.mem_iff_getElem?.mpr ⟨earlier, by rw [List.getElem?_take, if_pos hlt, hstage]⟩, hpad⟩

namespace Usage

variable {count index : Nat} {usage after : Usage}

/-- One pad is consumed when it is supplied and has not been consumed before. -/
theorem consume_cons_eq_ok {pad : Pad} {pads : List Pad} :
    usage.consume count index (pad :: pads) = .ok after ↔
      pad.IsSupplied count usage.produced ∧ pad ∉ usage.consumed ∧
        Usage.consume count index { usage with consumed := usage.consumed ++ [pad] } pads = .ok after := by
  rw [consume]
  cases hindex : pad.inputIndex? with
  | some number =>
      rw [Pad.isSupplied_of_input hindex]
      by_cases hrange : number < count
      · by_cases hmem : pad ∈ usage.consumed <;> simp [hrange, Nat.not_le.mpr hrange, hmem]
      · simp [hrange, Nat.not_lt.mp hrange]
  | none =>
      rw [Pad.isSupplied_of_link hindex]
      by_cases hthere : pad ∈ usage.produced
      · by_cases hmem : pad ∈ usage.consumed <;> simp [hthere, hmem]
      · simp [hthere]

/-- The inputs of a stage are consumed just when all are supplied and none has been consumed before
or is there twice. -/
theorem consume_eq_ok_iff {pads : List Pad} (hnodup : usage.consumed.Nodup) :
    usage.consume count index pads = .ok after ↔
      (∀ pad ∈ pads, pad.IsSupplied count usage.produced) ∧ (usage.consumed ++ pads).Nodup ∧
        after = { usage with consumed := usage.consumed ++ pads } := by
  induction pads generalizing usage with
  | nil => simp [consume, hnodup, eq_comm]
  | cons pad pads ih =>
      rw [consume_cons_eq_ok, List.forall_mem_cons, and_assoc]
      refine and_congr_right fun _ => ?_
      by_cases hmem : pad ∈ usage.consumed
      · have hrepeated : ¬(usage.consumed ++ pad :: pads).Nodup := fun h =>
          List.disjoint_of_nodup_append h hmem List.mem_cons_self
        simp [hmem, hrepeated]
      · have hnodup' : (usage.consumed ++ [pad]).Nodup :=
          List.nodup_append'.mpr ⟨hnodup, List.nodup_singleton pad, by simpa using hmem⟩
        rw [ih hnodup', List.append_assoc, List.singleton_append]
        simp [hmem]

/-- The outputs of a stage are produced just when none is an engine input, and none has been
produced before or is there twice. -/
theorem produce_eq_ok_iff {pads : List Pad} (hnodup : usage.produced.Nodup) :
    usage.produce pads = .ok after ↔
      (∀ pad ∈ pads, pad.inputIndex? = none) ∧ (usage.produced ++ pads).Nodup ∧
        after = { usage with produced := usage.produced ++ pads } := by
  induction pads generalizing usage with
  | nil => simp [produce, hnodup, eq_comm]
  | cons pad pads ih =>
      rw [produce, List.forall_mem_cons, and_assoc]
      cases hindex : pad.inputIndex? with
      | some number => simp [Pad.isInput, hindex]
      | none =>
          by_cases hmem : pad ∈ usage.produced
          · have hrepeated : ¬(usage.produced ++ pad :: pads).Nodup := fun h =>
              List.disjoint_of_nodup_append h hmem List.mem_cons_self
            simp [hmem, hrepeated]
          · have hnodup' : (usage.produced ++ [pad]).Nodup :=
              List.nodup_append'.mpr ⟨hnodup, List.nodup_singleton pad, by simpa using hmem⟩
            simp only [Pad.isInput, hindex, Option.isSome_none, Bool.false_or, List.contains_eq_mem, hmem,
              decide_false, Bool.false_eq_true, if_false, true_and]
            rw [ih hnodup', List.append_assoc, List.singleton_append]

theorem run_cons_eq_ok {count index : Nat} {usage after : Usage} {stage : Stage φ} {rest : Graph φ}
    (h : Usage.run count index usage (stage :: rest) = .ok after) :
    stage.filters ≠ [] ∧ ∃ taken given, usage.consume count index stage.inputs = .ok taken ∧
      taken.produce stage.outputs = .ok given ∧ Usage.run count (index + 1) given rest = .ok after := by
  rw [run] at h
  split at h
  · cases h
  · refine ⟨by simpa using ‹¬stage.filters.isEmpty = true›, ?_⟩
    cases htaken : usage.consume count index stage.inputs with
    | error error =>
        rw [htaken] at h
        cases h
    | ok taken =>
        rw [htaken] at h
        change (taken.produce stage.outputs).bind _ = _ at h
        cases hgiven : taken.produce stage.outputs with
        | error error =>
            rw [hgiven] at h
            cases h
        | ok given =>
            rw [hgiven] at h
            exact ⟨taken, given, rfl, hgiven, h⟩

/-- The stages from one of an index on pass just when each has a filter and is supplied by what has
been produced in front of it, and no pad is consumed twice, or produced twice, or produced as an
engine input. -/
theorem run_eq_ok_iff {graph : Graph φ} (hconsumed : usage.consumed.Nodup) (hproduced : usage.produced.Nodup) :
    Usage.run count index usage graph = .ok after ↔
      (∀ stage ∈ graph, stage.filters ≠ []) ∧
        (∀ (place : Nat) (stage : Stage φ), graph[place]? = some stage → ∀ pad ∈ stage.inputs,
          pad.IsSupplied count (usage.produced ++ outputs (graph.take place))) ∧
        (usage.consumed ++ graph.inputs).Nodup ∧ (∀ pad ∈ graph.outputs, pad.inputIndex? = none) ∧
        (usage.produced ++ graph.outputs).Nodup ∧
        after = { produced := usage.produced ++ graph.outputs, consumed := usage.consumed ++ graph.inputs } := by
  induction graph generalizing usage index with
  | nil => simp [run, inputs, outputs, hconsumed, hproduced, eq_comm]
  | cons stage rest ih =>
      rw [forall_getElem?_cons, List.forall_mem_cons, inputs_cons, outputs_cons, List.forall_mem_append,
        ← List.append_assoc, ← List.append_assoc, List.take_zero]
      constructor
      · intro h
        obtain ⟨hfilters, taken, given, htaken, hgiven, h⟩ := run_cons_eq_ok h
        obtain ⟨hsupplied, hconsumed', rfl⟩ := (consume_eq_ok_iff hconsumed).mp htaken
        obtain ⟨hlinks, hproduced', rfl⟩ :=
          (@produce_eq_ok_iff { usage with consumed := usage.consumed ++ stage.inputs } _ stage.outputs
            hproduced).mp hgiven
        obtain ⟨hfilters', hsupplied', hinputs, hlinks', houtputs, rfl⟩ := (ih hconsumed' hproduced').mp h
        refine ⟨⟨hfilters, hfilters'⟩, ⟨?_, fun place stage' hstage' pad hpad => ?_⟩, hinputs, ⟨hlinks, hlinks'⟩,
          houtputs, rfl⟩
        · rw [outputs, List.flatMap_nil, List.append_nil]
          exact hsupplied
        · rw [List.take_succ_cons, outputs_cons, ← List.append_assoc]
          exact hsupplied' place stage' hstage' pad hpad
      · rintro ⟨⟨hfilters, hfilters'⟩, ⟨hsupplied, hsupplied'⟩, hinputs, ⟨hlinks, hlinks'⟩, houtputs, hafter⟩
        have hconsumed' : (usage.consumed ++ stage.inputs).Nodup := (List.nodup_append.mp hinputs).1
        have hproduced' : (usage.produced ++ stage.outputs).Nodup := (List.nodup_append.mp houtputs).1
        rw [outputs, List.flatMap_nil, List.append_nil] at hsupplied
        have htaken := (@consume_eq_ok_iff count index usage _ stage.inputs hconsumed).mpr ⟨hsupplied, hconsumed', rfl⟩
        have hgiven := (@produce_eq_ok_iff { usage with consumed := usage.consumed ++ stage.inputs } _ stage.outputs
          hproduced).mpr ⟨hlinks, hproduced', rfl⟩
        rw [run, if_neg (by simpa using hfilters), htaken]
        change (Usage.produce _ stage.outputs).bind _ = _
        rw [hgiven]
        refine (ih hconsumed' hproduced').mpr ⟨hfilters', fun place stage' hstage' pad hpad => ?_, hinputs, hlinks',
          houtputs, hafter⟩
        have hpad' := hsupplied' place stage' hstage' pad hpad
        rwa [List.take_succ_cons, outputs_cons, ← List.append_assoc] at hpad'

/-- Just one link is open. -/
theorem open_eq_singleton_iff (hproduced : usage.produced.Nodup) {only : Pad} :
    usage.open = [only] ↔ ∀ pad, pad ∈ usage.produced ∧ pad ∉ usage.consumed ↔ pad = only := by
  have hmem : ∀ pad, pad ∈ usage.open ↔ pad ∈ usage.produced ∧ pad ∉ usage.consumed := by
    intro pad
    rw [Usage.open, List.mem_filter, List.contains_eq_mem, Bool.not_eq_true', decide_eq_false_iff_not]
  simp only [← hmem]
  constructor
  · intro h pad
    rw [h, List.mem_singleton]
  · intro h
    refine List.perm_singleton.mp ((List.perm_ext_iff_of_nodup (hproduced.filter _) (List.nodup_singleton only)).mpr ?_)
    exact fun pad => (h pad).trans List.mem_singleton.symm

end Usage

/-- A link is given when it is the only one that is open behind the last stage. -/
theorem output_eq_ok_iff_run {graph : Graph φ} {count : Nat} {only : Pad} :
    graph.output count = .ok only ↔ ∃ usage, Usage.run count 0 {} graph = .ok usage ∧ usage.open = [only] := by
  unfold output
  cases Usage.run count 0 {} graph with
  | error error => exact iff_of_false nofun nofun
  | ok usage =>
      change (Except.ok usage).bind _ = _ ↔ _
      dsimp only [Except.bind]
      constructor
      · intro h
        split at h
        · cases h
          exact ⟨usage, rfl, ‹_›⟩
        · cases h
        · cases h
      · rintro ⟨_, heq, hopen⟩
        cases heq
        rw [hopen]

/-- In a graph that passes its check every stage has a filter, and no pad is read twice. -/
theorem output_eq_ok {graph : Graph φ} {count : Nat} {pad : Pad} (h : graph.output count = .ok pad) :
    (∀ stage ∈ graph, stage.filters ≠ []) ∧ (graph.flatMap Stage.inputs).Nodup := by
  obtain ⟨usage, hrun, -⟩ := output_eq_ok_iff_run.mp h
  obtain ⟨hfilters, -, hinputs, -⟩ := (Usage.run_eq_ok_iff List.nodup_nil List.nodup_nil).mp hrun
  exact ⟨hfilters, hinputs⟩

theorem ne_nil_of_output {graph : Graph φ} {count : Nat} {pad : Pad} (h : graph.output count = .ok pad) :
    graph ≠ [] := by
  rintro rfl
  cases h

/-- Stages that read a pad in common are one and the same. -/
theorem getElem?_reader_unique {graph : Graph φ} (hnodup : (graph.flatMap Stage.inputs).Nodup) {i j : Nat}
    {reader other : Stage φ} {pad : Pad} (hi : graph[i]? = some reader) (hj : graph[j]? = some other)
    (hreader : pad ∈ reader.inputs) (hother : pad ∈ other.inputs) : i = j := by
  obtain ⟨-, hdisjoint⟩ := List.nodup_flatMap.mp hnodup
  obtain ⟨hi', rfl⟩ := List.getElem?_eq_some_iff.mp hi
  obtain ⟨hj', rfl⟩ := List.getElem?_eq_some_iff.mp hj
  rcases Nat.lt_trichotomy i j with hlt | rfl | hlt
  · exact absurd hother (List.pairwise_iff_getElem.mp hdisjoint i j hi' hj' hlt hreader)
  · rfl
  · exact absurd hreader (List.pairwise_iff_getElem.mp hdisjoint j i hj' hi' hlt hother)

end Graph

end Segue
