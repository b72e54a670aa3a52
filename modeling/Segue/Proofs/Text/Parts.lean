import Mathlib.Data.List.Forall2
import Mathlib.Data.List.TakeWhile

/-!
Lists that are read part by part. Main statements: such a list is read just when each of its parts
is; and every list is cut in one way into what has some property and what begins with something
else.
-/

namespace Segue

variable {α β γ : Type} {read : α → Option β} {items : List α} {results : List β}

theorem mapM_eq_some_iff :
    items.mapM read = some results ↔ List.Forall₂ (fun item result => read item = some result) items results := by
  induction items generalizing results with
  | nil => cases results <;> simp
  | cons item items ih =>
      rw [List.mapM_cons, List.forall₂_cons_left_iff]
      simp only [Option.bind_eq_bind, Option.bind_eq_some_iff, Option.pure_def, Option.some.injEq]
      constructor
      · rintro ⟨result, hitem, rest, hitems, rfl⟩
        exact ⟨result, rest, hitem, ih.mp hitems, rfl⟩
      · rintro ⟨result, rest, hitem, hitems, rfl⟩
        exact ⟨result, hitem, rest, ih.mpr hitems, rfl⟩

theorem length_of_mapM (h : items.mapM read = some results) : results.length = items.length :=
  (mapM_eq_some_iff.mp h).length_eq.symm

/-- Whatever is read is read from one of the parts. -/
theorem exists_of_mem_mapM (h : items.mapM read = some results) {result : β} (hmem : result ∈ results) :
    ∃ item ∈ items, read item = some result := by
  have hparts := mapM_eq_some_iff.mp h
  clear h
  induction hparts with
  | nil => cases hmem
  | cons hread _ ih =>
      rcases List.mem_cons.mp hmem with rfl | hmem
      · exact ⟨_, List.mem_cons_self, hread⟩
      · obtain ⟨item, hitem, hresult⟩ := ih hmem
        exact ⟨item, List.mem_cons_of_mem _ hitem, hresult⟩

theorem mapM_map_eq_some {write : γ → α} {meaning : γ → β} {items : List γ}
    (h : ∀ item ∈ items, read (write item) = some (meaning item)) :
    (items.map write).mapM read = some (items.map meaning) := by
  rw [mapM_eq_some_iff, List.forall₂_map_left_iff, List.forall₂_map_right_iff, List.forall₂_same]
  exact h

theorem mapM_map_eq_some_iff {write : β → α} {items : List β} :
    (items.map write).mapM read = some items ↔ ∀ item ∈ items, read (write item) = some item := by
  rw [mapM_eq_some_iff, List.forall₂_map_left_iff, List.forall₂_same]

section

variable {p : α → Bool} {front rest : List α}

/-- What has a property is taken up to where something else begins. -/
theorem span_append (hfront : ∀ a ∈ front, p a = true) (hrest : ∀ a, rest.head? = some a → p a = false) :
    (front ++ rest).takeWhile p = front ∧ (front ++ rest).dropWhile p = rest := by
  cases rest with
  | nil =>
      rw [List.append_nil]
      exact ⟨List.takeWhile_eq_self_iff.mpr hfront, List.dropWhile_eq_nil_iff.mpr hfront⟩
  | cons a rest =>
      have ha : ¬ p a = true := by simp [hrest a rfl]
      rw [List.takeWhile_append_of_pos hfront, List.dropWhile_append_of_pos hfront,
        List.takeWhile_cons_of_neg ha, List.dropWhile_cons_of_neg ha, List.append_nil]
      exact ⟨rfl, rfl⟩

theorem exists_span (p : α → Bool) (items : List α) :
    ∃ front rest, items = front ++ rest ∧ (∀ a ∈ front, p a = true) ∧ ∀ a, rest.head? = some a → p a = false := by
  refine ⟨items.takeWhile p, items.dropWhile p, List.takeWhile_append_dropWhile.symm,
    List.all_eq_true.mp List.all_takeWhile, fun a ha => ?_⟩
  have hhead := List.head?_dropWhile_not p items
  rw [ha] at hhead
  exact hhead

end

end Segue
