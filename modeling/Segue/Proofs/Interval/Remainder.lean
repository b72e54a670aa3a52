import Segue.Proofs.Interval.Merge

/-!
What separated runs leave of a window, without rounding. Main statements: it is separated as well
and lies inside the window, and it holds the times of the window that no run holds.
-/

namespace Segue.Interval

variable {cursor windowEnd : Rat} {run : Interval Rat} {rest : List (Interval Rat)}

theorem mem_between {start stop : Rat} {part : Interval Rat} :
    part ∈ between start stop ↔ start < stop ∧ part = ⟨start, stop⟩ := by
  rw [between]
  split
  · simp only [List.mem_singleton, ‹start < stop›, true_and]
  · simp only [List.not_mem_nil, ‹¬start < stop›, false_and]

theorem exists_mem_between {start stop : Rat} (time : Rat) :
    (∃ part ∈ between start stop, time ∈ part) ↔ start ≤ time ∧ time < stop := by
  simp only [mem_between]
  constructor
  · rintro ⟨part, ⟨-, rfl⟩, htime⟩
    exact htime
  · intro htime
    exact ⟨_, ⟨lt_of_le_of_lt htime.1 htime.2, rfl⟩, htime⟩

theorem keptFrom_of_after (rest : List (Interval Rat)) (h : windowEnd ≤ run.start) :
    keptFrom cursor windowEnd (run :: rest) = between cursor windowEnd := by
  rw [keptFrom, if_pos h]

theorem keptFrom_of_before (rest : List (Interval Rat)) (hstart : run.start < windowEnd) (h : run.stop ≤ cursor) :
    keptFrom cursor windowEnd (run :: rest) = keptFrom cursor windowEnd rest := by
  rw [keptFrom, if_neg (not_le.mpr hstart), if_pos h]

/-- The gap before a run that is reached is kept, and the walk goes on where the run stops. -/
theorem keptFrom_of_reached (rest : List (Interval Rat)) (hstart : run.start < windowEnd) (h : cursor < run.stop) :
    keptFrom cursor windowEnd (run :: rest) = between cursor run.start ++ keptFrom run.stop windowEnd rest := by
  have hcursor : Scalar.larger cursor run.stop = run.stop := by rw [Scalar.larger_rat, max_eq_right (le_of_lt h)]
  have hgap : Scalar.smaller run.start windowEnd = run.start := by
    rw [Scalar.smaller_rat, min_eq_left (le_of_lt hstart)]
  rw [keptFrom, if_neg (not_le.mpr hstart), if_neg (not_le.mpr h), hcursor, hgap, between]
  split <;> rfl

/-- What is kept starts at the cursor or behind it and stops at the end of the window or before it. -/
theorem keptFrom_inside {runs : List (Interval Rat)} (hruns : Separated runs) (cursor windowEnd : Rat) :
    ∀ part ∈ keptFrom cursor windowEnd runs, cursor ≤ part.start ∧ part.stop ≤ windowEnd := by
  have hbetween : ∀ cursor : Rat, ∀ part ∈ between cursor windowEnd,
      cursor ≤ part.start ∧ part.stop ≤ windowEnd := by
    intro cursor part hpart
    obtain ⟨-, rfl⟩ := mem_between.mp hpart
    exact ⟨le_refl _, le_refl _⟩
  induction runs generalizing cursor with
  | nil => exact hbetween cursor
  | cons run rest ih =>
      intro part hpart
      rcases le_or_gt windowEnd run.start with hafter | hstart
      · rw [keptFrom_of_after rest hafter] at hpart
        exact hbetween cursor part hpart
      · rcases le_or_gt run.stop cursor with hbefore | hreached
        · rw [keptFrom_of_before rest hstart hbefore] at hpart
          exact ih hruns.tail cursor part hpart
        · rw [keptFrom_of_reached rest hstart hreached] at hpart
          rcases List.mem_append.mp hpart with hgap | hlater
          · obtain ⟨-, rfl⟩ := mem_between.mp hgap
            exact ⟨le_refl _, le_of_lt hstart⟩
          · obtain ⟨hlower, hupper⟩ := ih hruns.tail run.stop part hlater
            exact ⟨le_trans (le_of_lt hreached) hlower, hupper⟩

/-- What is kept is in order, with gaps between the parts. -/
theorem separated_keptFrom {runs : List (Interval Rat)} (hruns : Separated runs) (cursor windowEnd : Rat) :
    Separated (keptFrom cursor windowEnd runs) := by
  have hbetween : ∀ start stop : Rat, Separated (between start stop) := by
    intro start stop
    refine ⟨fun part hpart => ?_, ?_⟩
    · obtain ⟨hlt, rfl⟩ := mem_between.mp hpart
      exact hlt
    · rw [between]
      split
      · exact List.pairwise_singleton _ _
      · exact List.Pairwise.nil
  induction runs generalizing cursor with
  | nil => exact hbetween cursor windowEnd
  | cons run rest ih =>
      rcases le_or_gt windowEnd run.start with hafter | hstart
      · rw [keptFrom_of_after rest hafter]
        exact hbetween cursor windowEnd
      · rcases le_or_gt run.stop cursor with hbefore | hreached
        · rw [keptFrom_of_before rest hstart hbefore]
          exact ih hruns.tail cursor
        · rw [keptFrom_of_reached rest hstart hreached]
          have hlater := ih hruns.tail run.stop
          have hinside := keptFrom_inside hruns.tail run.stop windowEnd
          refine ⟨fun part hpart => ?_, List.pairwise_append.mpr ⟨(hbetween _ _).apart, hlater.apart, ?_⟩⟩
          · exact (List.mem_append.mp hpart).elim ((hbetween _ _).positive part) (hlater.positive part)
          · intro before hgap after hafter
            obtain ⟨-, rfl⟩ := mem_between.mp hgap
            -- the run itself is the gap between the two parts
            exact lt_of_lt_of_le (hruns.positive run List.mem_cons_self) (hinside after hafter).1

/-- What is kept holds the times from the cursor to the end of the window that are in none of the
runs. -/
theorem exists_mem_keptFrom {runs : List (Interval Rat)} (hruns : Separated runs) (cursor windowEnd time : Rat) :
    (∃ part ∈ keptFrom cursor windowEnd runs, time ∈ part) ↔
      (cursor ≤ time ∧ time < windowEnd) ∧ ∀ run ∈ runs, time ∉ run := by
  induction runs generalizing cursor with
  | nil =>
      rw [keptFrom, exists_mem_between]
      simp only [List.not_mem_nil, false_imp_iff, implies_true, and_true]
  | cons run rest ih =>
      obtain ⟨hbehind, -⟩ := List.pairwise_cons.mp hruns.apart
      have hpositive := hruns.positive run List.mem_cons_self
      rcases le_or_gt windowEnd run.start with hafter | hstart
      · rw [keptFrom_of_after rest hafter, exists_mem_between]
        refine ⟨fun htime => ⟨htime, fun other hother hmem => ?_⟩, fun h => h.1⟩
        have hrun : run.start ≤ other.start := by
          rcases List.mem_cons.mp hother with rfl | hother
          · exact le_refl _
          · exact le_of_lt (hpositive.trans (hbehind other hother))
        exact absurd (lt_of_lt_of_le htime.2 hafter) (not_lt.mpr (le_trans hrun hmem.1))
      · rw [List.forall_mem_cons]
        rcases le_or_gt run.stop cursor with hbefore | hreached
        · rw [keptFrom_of_before rest hstart hbefore, ih hruns.tail cursor]
          refine ⟨fun h => ⟨h.1, fun hmem => ?_, h.2⟩, fun h => ⟨h.1, h.2.2⟩⟩
          exact absurd (lt_of_lt_of_le hmem.2 hbefore) (not_lt.mpr h.1.1)
        · have hsplit : (∃ part ∈ between cursor run.start ++ keptFrom run.stop windowEnd rest, time ∈ part) ↔
              (cursor ≤ time ∧ time < run.start) ∨
                (run.stop ≤ time ∧ time < windowEnd) ∧ ∀ other ∈ rest, time ∉ other := by
            rw [← exists_mem_between, ← ih hruns.tail run.stop]
            simp only [List.mem_append, or_and_right, exists_or]
          rw [keptFrom_of_reached rest hstart hreached, hsplit]
          constructor
          · rintro (⟨hlower, hupper⟩ | ⟨⟨hlower, hupper⟩, hrest⟩)
            · refine ⟨⟨hlower, hupper.trans hstart⟩, fun hmem => absurd hupper (not_lt.mpr hmem.1), ?_⟩
              intro other hother hmem
              exact absurd (hupper.trans (hpositive.trans (hbehind other hother))) (not_lt.mpr hmem.1)
            · exact ⟨⟨le_trans (le_of_lt hreached) hlower, hupper⟩, fun hmem => absurd hmem.2 (not_lt.mpr hlower),
                hrest⟩
          · rintro ⟨⟨hlower, hupper⟩, hrun, hrest⟩
            rcases lt_or_ge time run.start with hgap | hin
            · exact .inl ⟨hlower, hgap⟩
            · exact .inr ⟨⟨not_lt.mp fun hlt => hrun ⟨hin, hlt⟩, hupper⟩, hrest⟩

end Segue.Interval
