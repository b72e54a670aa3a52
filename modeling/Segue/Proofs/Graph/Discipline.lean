import Segue.Proofs.Graph.Checked

/-!
Graphs whose labels are in order. Main statement: a graph passes the check of its labels with one
open link just when every stage has a filter, every pad is produced or given before it is consumed,
no pad is consumed twice or produced twice, and that link is the only one that no stage consumes.
-/

namespace Segue

namespace Graph

variable {φ : Type}

/-- The labels of a graph over so many engine inputs are in order, with one link left open. -/
structure IsWired (graph : Graph φ) (count : Nat) (only : Pad) : Prop where
  filters : ∀ stage ∈ graph, stage.filters ≠ []
  /-- What a stage consumes is an engine input in range, or comes out of a stage in front of it. -/
  supplied : ∀ (place : Nat) (stage : Stage φ), graph[place]? = some stage → ∀ pad ∈ stage.inputs,
    (∃ index, pad.inputIndex? = some index ∧ index < count) ∨
      ∃ earlier < place, ∃ producer : Stage φ, graph[earlier]? = some producer ∧ pad ∈ producer.outputs
  inputs_nodup : graph.inputs.Nodup
  links : ∀ pad ∈ graph.outputs, pad.inputIndex? = none
  outputs_nodup : graph.outputs.Nodup
  /-- One link comes out of a stage and goes into none. -/
  only : ∀ pad, pad ∈ graph.outputs ∧ pad ∉ graph.inputs ↔ pad = only

/-- With links alone produced, what is supplied is an engine input in range or comes out of a stage
in front. -/
theorem isSupplied_take_iff {graph : Graph φ} {count : Nat} (hlinks : ∀ pad ∈ graph.outputs, pad.inputIndex? = none)
    (place : Nat) (pad : Pad) :
    pad.IsSupplied count ([] ++ outputs (graph.take place)) ↔
      (∃ index, pad.inputIndex? = some index ∧ index < count) ∨
        ∃ earlier < place, ∃ producer : Stage φ, graph[earlier]? = some producer ∧ pad ∈ producer.outputs := by
  rw [List.nil_append, Pad.isSupplied_iff, mem_outputs_take]
  intro other hother
  obtain ⟨earlier, -, producer, hproducer, hmem⟩ := mem_outputs_take.mp hother
  exact hlinks other (List.mem_flatMap.mpr ⟨producer, List.mem_of_getElem? hproducer, hmem⟩)

theorem isWired_of_output {graph : Graph φ} {count : Nat} {only : Pad} (h : graph.output count = .ok only) :
    graph.IsWired count only := by
  obtain ⟨usage, hrun, hopen⟩ := output_eq_ok_iff_run.mp h
  obtain ⟨hfilters, hsupplies, hinputs, hlinks, houtputs, rfl⟩ :=
    (Usage.run_eq_ok_iff List.nodup_nil List.nodup_nil).mp hrun
  exact ⟨hfilters, fun place stage hstage pad hpad =>
      (isSupplied_take_iff hlinks place pad).mp (hsupplies place stage hstage pad hpad),
    hinputs, hlinks, houtputs, (Usage.open_eq_singleton_iff houtputs).mp hopen⟩

/-- **Checked labels.** The check of a graph over so many engine inputs gives a link just when the
labels are in order and this is the link that is left open. -/
theorem output_eq_ok_iff (graph : Graph φ) (count : Nat) (only : Pad) :
    graph.output count = .ok only ↔ graph.IsWired count only := by
  refine ⟨isWired_of_output, fun h => ?_⟩
  have hrun := (@Usage.run_eq_ok_iff φ count 0 {} _ graph List.nodup_nil List.nodup_nil).mpr ⟨h.filters,
    fun place stage hstage pad hpad =>
      (isSupplied_take_iff h.links place pad).mpr (h.supplied place stage hstage pad hpad),
    h.inputs_nodup, h.links, h.outputs_nodup, rfl⟩
  exact output_eq_ok_iff_run.mpr ⟨_, hrun, (Usage.open_eq_singleton_iff h.outputs_nodup).mpr h.only⟩

end Graph

end Segue
