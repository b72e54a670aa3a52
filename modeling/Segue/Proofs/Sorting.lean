import Mathlib.Order.Lattice

/-!
Sorting by a key. Main statements: the keys come in order, and items with the same key keep the
order they had.
-/

namespace Segue

variable {α β : Type} [LinearOrder β] (key : α → β)

theorem key_le_trans (a b c : α) (hab : decide (key a ≤ key b) = true) (hbc : decide (key b ≤ key c) = true) :
    decide (key a ≤ key c) = true :=
  decide_eq_true (le_trans (of_decide_eq_true hab) (of_decide_eq_true hbc))

theorem key_le_total (a b : α) : (decide (key a ≤ key b) || decide (key b ≤ key a)) = true := by
  simpa using le_total (key a) (key b)

theorem pairwise_mergeSort_key (items : List α) :
    (items.mergeSort fun a b => decide (key a ≤ key b)).Pairwise fun a b => key a ≤ key b :=
  (List.pairwise_mergeSort (key_le_trans key) (key_le_total key) items).imp of_decide_eq_true

theorem filter_mergeSort_key (items : List α) (value : β) :
    ((items.mergeSort fun a b => decide (key a ≤ key b)).filter fun item => key item = value) =
      items.filter fun item => key item = value := by
  have hequal : (items.filter fun item => key item = value).Pairwise fun a b => decide (key a ≤ key b) = true := by
    refine List.pairwise_of_forall_mem_list fun a ha b hb => decide_eq_true (le_of_eq ?_)
    exact (of_decide_eq_true (List.mem_filter.mp ha).2).trans (of_decide_eq_true (List.mem_filter.mp hb).2).symm
  have hsublist := (List.sublist_mergeSort (key_le_trans key) (key_le_total key) hequal List.filter_sublist).filter
    fun item => key item = value
  have hperm := List.mergeSort_perm items fun a b => decide (key a ≤ key b)
  rw [List.filter_filter] at hsublist
  simp only [Bool.and_self] at hsublist
  exact (hsublist.eq_of_length (hperm.filter _).length_eq.symm).symm

end Segue
