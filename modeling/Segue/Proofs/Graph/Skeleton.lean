import Segue.Graph.Check

/-!
What the check of the labels sees of a graph. Main statement: the check has the same result for
graphs that differ in nothing but in what their filters are.
-/

namespace Segue

variable {φ ψ : Type}

/-- The stage with filters that say nothing of what they do. -/
def Stage.skeleton (stage : Stage φ) : Stage Unit := stage.map fun _ => ()

namespace Graph

/-- The stages with their labels and with the count of their filters alone. -/
def skeleton (graph : Graph φ) : Graph Unit := graph.map Stage.skeleton

theorem skeleton_append (first second : Graph φ) : skeleton (first ++ second) = first.skeleton ++ second.skeleton :=
  List.map_append

theorem run_skeleton (graph : Graph φ) (count index : Nat) (usage : Usage) :
    Usage.run count index usage graph.skeleton = Usage.run count index usage graph := by
  induction graph generalizing index usage with
  | nil => rfl
  | cons stage rest ih =>
      have hfilters : stage.skeleton.filters.isEmpty = stage.filters.isEmpty := List.isEmpty_map
      show Usage.run count index usage (stage.skeleton :: skeleton rest) = _
      rw [Usage.run, Usage.run, hfilters]
      -- the labels are those of the stage itself
      show (if _ then _ else (usage.consume count index stage.inputs).bind fun taken =>
        (taken.produce stage.outputs).bind fun given => Usage.run count (index + 1) given (skeleton rest)) = _
      simp only [ih]
      rfl

theorem output_skeleton (graph : Graph φ) (count : Nat) : graph.skeleton.output count = graph.output count := by
  unfold output
  rw [run_skeleton]

/-- Graphs with one skeleton pass the check with one result. -/
theorem output_congr {graph : Graph φ} {other : Graph ψ} (h : graph.skeleton = other.skeleton) (count : Nat) :
    graph.output count = other.output count := by
  rw [← output_skeleton, h, output_skeleton]

end Graph

end Segue
