import Mathlib.Algebra.Order.Ring.Abs
import Mathlib.Tactic.Ring
import Segue.Mixing.Chain
import Segue.Proofs.Interval.Kept

/-!
How a tempo change goes back to normal speed, without rounding. Main statement: the pieces of a ramp
play a track from its beginning on without a gap or an overlap, at the rate up to the ramp, in eight
equal steps down it, and unchanged behind the region.
-/

namespace Segue

/-- Where the region ends in a track of some length. -/
def TempoRegion.stopWithin (region : TempoRegion Rat) (length : Rat) : Rat := Scalar.clamp 0 length region.stop

/-- Where its ramp begins there. -/
def TempoRegion.rampWithin (region : TempoRegion Rat) (length : Rat) : Rat :=
  Scalar.clamp 0 (region.stopWithin length) region.rampStart

namespace Tempo

/-- Each piece starts where the one before it stops, from one time to another. -/
def Tiles : Rat → List (Piece Rat) → Rat → Prop
  | time, [], stop => time = stop
  | time, piece :: rest, stop =>
    piece.start = time ∧ ∃ next, piece.stop = some next ∧ time < next ∧ Tiles next rest stop

/-- The pieces play a track of some length from its beginning on. The last one stops where the track
does, or it is open and plays what is left as it is. -/
def Fills (length : Rat) (pieces : List (Piece Rat)) : Prop :=
  pieces ≠ [] ∧ (Tiles 0 pieces length ∨ ∃ closed time, time ≤ length ∧ Tiles 0 closed time ∧
    pieces = closed ++ [{ start := time, stop := none, rate := 1 }])

/-- A ramp from a rate down to one: eight steps of one width, each strictly nearer to one than the
step before it. -/
structure IsRamp (rate width : Rat) (steps : List (Piece Rat)) : Prop where
  length_eq : steps.length = 8
  stop_eq : ∀ step ∈ steps, step.stop = some (step.start + width)
  between : ∀ step ∈ steps, min rate 1 < step.rate ∧ step.rate < max rate 1
  nears : steps.Pairwise fun earlier later => |later.rate - 1| < |earlier.rate - 1|

/-- A track of some length at a rate up to the ramp, along the ramp to the end of the region, and
unchanged from there on. -/
structure GoesBack (rate rampStart regionEnd length : Rat) (pieces : List (Piece Rat)) : Prop where
  fills : Fills length pieces
  parts : ∃ lead ramp tail, pieces = lead ++ ramp ++ tail ∧
    Tiles 0 lead rampStart ∧ (∀ piece ∈ lead, piece.rate = rate) ∧
    Tiles rampStart ramp regionEnd ∧ (ramp = [] ∨ IsRamp rate ((regionEnd - rampStart) / 8) ramp) ∧
    ∀ piece ∈ tail, regionEnd ≤ piece.start ∧ piece.rate = 1

theorem Tiles.append {start middle stop : Rat} {pieces others : List (Piece Rat)} (h : Tiles start pieces middle)
    (hothers : Tiles middle others stop) : Tiles start (pieces ++ others) stop := by
  induction pieces generalizing start with
  | nil =>
      cases h
      exact hothers
  | cons piece pieces ih =>
      obtain ⟨hstart, next, hnext, hlt, hrest⟩ := h
      exact ⟨hstart, next, hnext, hlt, ih hrest⟩

theorem tiles_singleton {start stop rate : Rat} (h : start < stop) :
    Tiles start [{ start, stop := some stop, rate }] stop := ⟨rfl, stop, rfl, h, rfl⟩

def stepAt (rate start width : Rat) (step : Nat) : Piece Rat where
  start := start + width * step
  stop := some (start + width * (step + 1))
  rate := rate + (1 - rate) * ((step + 1 / 2) / 8)

theorem staircase_rat (rate start width : Rat) :
    staircase rate start width = (List.range 8).map (stepAt rate start width) := by
  refine List.map_congr_left fun step _ => ?_
  have hhalf : (1 / 2 : Rat) = 0.5 := by norm_num
  have hnext : (step + 1 : Rat) = (step + 1 : Nat) := (Nat.cast_succ step).symm
  rw [stepAt, hhalf, hnext]
  rfl

theorem tiles_steps {width : Rat} (hwidth : 0 < width) (rate start : Rat) (first count : Nat) :
    Tiles (start + width * first) ((List.range' first count).map (stepAt rate start width))
      (start + width * (first + count : Nat)) := by
  induction count generalizing first with
  | zero => rfl
  | succ count ih =>
      have hrest := ih (first + 1)
      rw [Nat.succ_add_eq_add_succ, Nat.cast_succ first] at hrest
      refine ⟨rfl, start + width * (first + 1), rfl, ?_, hrest⟩
      linarith

/-- The share of the way back to normal speed that is left in the middle of a step. -/
def shareLeft (step : Nat) : Rat := 1 - (step + 1 / 2) / 8

theorem shareLeft_pos {step : Nat} (h : step < 8) : 0 < shareLeft step := by
  have hlt : (step + 1 : Rat) ≤ 8 := by exact_mod_cast h
  rw [shareLeft]
  linarith

theorem shareLeft_lt_one (step : Nat) : shareLeft step < 1 := by
  have hnonneg : (0 : Rat) ≤ step := Nat.cast_nonneg step
  rw [shareLeft]
  linarith

theorem shareLeft_lt {step later : Nat} (h : step < later) : shareLeft later < shareLeft step := by
  have hlt : (step : Rat) < later := by exact_mod_cast h
  rw [shareLeft, shareLeft]
  linarith

theorem stepAt_rate_sub_one (rate start width : Rat) (step : Nat) :
    (stepAt rate start width step).rate - 1 = (rate - 1) * shareLeft step := by
  rw [stepAt, shareLeft]
  ring

/-- Between a rate and one lies what is strictly nearer to one on the same side of it. -/
theorem between_of_share {rate other share : Rat} (hrate : rate ≠ 1) (hpos : 0 < share) (hlt : share < 1)
    (h : other - 1 = (rate - 1) * share) : min rate 1 < other ∧ other < max rate 1 := by
  rcases lt_or_gt_of_ne hrate with hslow | hfast
  · have hbelow : (rate - 1) * share < 0 := mul_neg_of_neg_of_pos (sub_neg.mpr hslow) hpos
    have habove : (rate - 1) * 1 < (rate - 1) * share := mul_lt_mul_of_neg_left hlt (sub_neg.mpr hslow)
    rw [min_eq_left hslow.le, max_eq_right hslow.le]
    constructor <;> linarith
  · have habove : 0 < (rate - 1) * share := mul_pos (sub_pos.mpr hfast) hpos
    have hbelow : (rate - 1) * share < (rate - 1) * 1 := mul_lt_mul_of_pos_left hlt (sub_pos.mpr hfast)
    rw [min_eq_right hfast.le, max_eq_left hfast.le]
    constructor <;> linarith

theorem isRamp_staircase {rate : Rat} (hrate : rate ≠ 1) (start width : Rat) :
    IsRamp rate width (staircase rate start width) := by
  rw [staircase_rat]
  refine ⟨by simp, ?_, ?_, ?_⟩
  · intro step hstep
    obtain ⟨number, -, rfl⟩ := List.mem_map.mp hstep
    rw [stepAt, Option.some.injEq]
    ring
  · intro step hstep
    obtain ⟨number, hnumber, rfl⟩ := List.mem_map.mp hstep
    exact between_of_share hrate (shareLeft_pos (List.mem_range.mp hnumber)) (shareLeft_lt_one number)
      (stepAt_rate_sub_one rate start width number)
  · refine List.pairwise_map.mpr (List.pairwise_lt_range.imp_of_mem fun {earlier later} hearlier hlater hlt => ?_)
    have hpos := shareLeft_pos (List.mem_range.mp hlater)
    have hpos' := shareLeft_pos (List.mem_range.mp hearlier)
    calc |(stepAt rate start width later).rate - 1|
        = |rate - 1| * shareLeft later := by rw [stepAt_rate_sub_one, abs_mul, abs_of_pos hpos]
      _ < |rate - 1| * shareLeft earlier :=
          mul_lt_mul_of_pos_left (shareLeft_lt hlt) (abs_pos.mpr (sub_ne_zero.mpr hrate))
      _ = |(stepAt rate start width earlier).rate - 1| := by rw [stepAt_rate_sub_one, abs_mul, abs_of_pos hpos']

/-- The piece in front of a ramp, when it does not begin with the track. -/
def leadPieces (rate rampStart : Rat) : List (Piece Rat) :=
  if 0 < rampStart then [{ start := 0, stop := some rampStart, rate }] else []

/-- The steps of a ramp, when it has any width. -/
def stepPieces (rate rampStart regionEnd : Rat) : List (Piece Rat) :=
  if 0 < (regionEnd - rampStart) / 8 then staircase rate rampStart ((regionEnd - rampStart) / 8) else []

theorem rampPieces_rat (rate length : Rat) (region : TempoRegion Rat) :
    rampPieces rate region.rampStart region.stop length =
      let rampStart := region.rampWithin length
      let regionEnd := region.stopWithin length
      let closed := leadPieces rate rampStart ++ stepPieces rate rampStart regionEnd
      if regionEnd < length ∨ closed.isEmpty then closed ++ [{ start := regionEnd, stop := none, rate := 1 }]
      else closed := rfl

theorem tiles_leadPieces {rampStart : Rat} (h : 0 ≤ rampStart) (rate : Rat) :
    Tiles 0 (leadPieces rate rampStart) rampStart := by
  rw [leadPieces]
  split
  · exact tiles_singleton ‹0 < rampStart›
  · exact le_antisymm h (not_lt.mp ‹¬0 < rampStart›)

theorem rate_of_mem_leadPieces {rate rampStart : Rat} : ∀ piece ∈ leadPieces rate rampStart, piece.rate = rate := by
  intro piece hpiece
  rw [leadPieces] at hpiece
  split at hpiece
  · rw [List.mem_singleton.mp hpiece]
  · cases hpiece

theorem tiles_stepPieces {rampStart regionEnd : Rat} (h : rampStart ≤ regionEnd) (rate : Rat) :
    Tiles rampStart (stepPieces rate rampStart regionEnd) regionEnd := by
  rw [stepPieces]
  split
  · have hsteps := tiles_steps ‹0 < (regionEnd - rampStart) / 8› rate rampStart 0 8
    have hfirst : rampStart + (regionEnd - rampStart) / 8 * (0 : Nat) = rampStart := by push_cast; ring
    have hlast : rampStart + (regionEnd - rampStart) / 8 * (0 + 8 : Nat) = regionEnd := by push_cast; ring
    rw [hfirst, hlast, ← List.range_eq_range', ← staircase_rat] at hsteps
    exact hsteps
  · refine le_antisymm h (not_lt.mp fun hlt => ‹¬0 < (regionEnd - rampStart) / 8› ?_)
    exact div_pos (sub_pos.mpr hlt) (by norm_num)

theorem isRamp_stepPieces {rate : Rat} (hrate : rate ≠ 1) (rampStart regionEnd : Rat) :
    stepPieces rate rampStart regionEnd = [] ∨
      IsRamp rate ((regionEnd - rampStart) / 8) (stepPieces rate rampStart regionEnd) := by
  rw [stepPieces]
  split
  · exact Or.inr (isRamp_staircase hrate _ _)
  · exact Or.inl rfl

/-- The ramp is inside the region, and both are inside the track. -/
theorem bounds_within (region : TempoRegion Rat) {length : Rat} (h : 0 ≤ length) :
    0 ≤ region.rampWithin length ∧ region.rampWithin length ≤ region.stopWithin length ∧
      0 ≤ region.stopWithin length ∧ region.stopWithin length ≤ length := by
  have hstop : 0 ≤ region.stopWithin length := Scalar.le_clamp _ h
  exact ⟨Scalar.le_clamp _ hstop, Scalar.clamp_le _ hstop, hstop, Scalar.clamp_le _ h⟩

/-- Where the track ends with the region the last closed piece ends it, and else an open one plays
the rest. -/
theorem goesBack_of_ne_one {rate length : Rat} (region : TempoRegion Rat) (hrate : rate ≠ 1) (hlength : 0 ≤ length) :
    GoesBack rate (region.rampWithin length) (region.stopWithin length) length
      (rampPieces rate region.rampStart region.stop length) := by
  obtain ⟨hstart, hle, -, hstop⟩ := bounds_within region hlength
  rw [rampPieces_rat]
  dsimp only
  generalize region.rampWithin length = rampStart at hstart hle ⊢
  generalize region.stopWithin length = regionEnd at hle hstop ⊢
  have hlead := tiles_leadPieces hstart rate
  have hsteps := tiles_stepPieces hle rate
  have hclosed := hlead.append hsteps
  have hramp := isRamp_stepPieces hrate rampStart regionEnd
  split
  · refine ⟨⟨List.append_ne_nil_of_right_ne_nil _ (List.cons_ne_nil _ _), Or.inr ⟨_, _, hstop, hclosed, rfl⟩⟩, ?_⟩
    refine ⟨_, _, _, rfl, hlead, rate_of_mem_leadPieces, hsteps, hramp, ?_⟩
    intro piece hpiece
    rw [List.mem_singleton.mp hpiece]
    exact ⟨le_refl _, rfl⟩
  · obtain ⟨hends, hsome⟩ := not_or.mp ‹¬(_ ∨ _)›
    obtain rfl : regionEnd = length := le_antisymm hstop (not_lt.mp hends)
    refine ⟨⟨by simpa using hsome, Or.inl hclosed⟩, ?_⟩
    exact ⟨_, _, [], (List.append_nil _).symm, hlead, rate_of_mem_leadPieces, hsteps, hramp, List.forall_mem_nil _⟩

theorem ne_one_of_changesTempo {rate : Rat} (h : changesTempo rate = true) : rate ≠ 1 := by
  rintro rfl
  revert h
  decide +kernel

end Tempo

namespace Chain

theorem cutLength_nonneg (kept : List (Interval Rat)) : 0 ≤ cutLength kept := by
  rw [cutLength]
  split
  · decide +kernel
  · rw [Interval.totalLength, Scalar.total_rat]
    refine List.sum_nonneg fun length hlength => ?_
    obtain ⟨interval, -, rfl⟩ := List.mem_map.mp hlength
    rw [Interval.length_rat]
    exact le_max_left _ _

/-- A track with a tempo region is played in the pieces of its ramp. -/
theorem tempoStages_of_region {track : Track Rat} {rate : Rat} {region : TempoRegion Rat}
    (hrate : track.tempoChange? = some rate) (hregion : track.tempoRegion = some region) (index : Nat)
    (kept : List (Interval Rat)) (input : Pad) :
    (tempoStages index track kept input).1 =
      splitJoin index .ramp
        ((Tempo.rampPieces rate region.rampStart region.stop (cutLength kept)).map rampEffects) input
        (tempoPad index) := by
  rw [tempoStages, hrate, hregion]

end Chain

namespace Tempo

/-- A ramp of ten seconds in a region that starts before the track and ends four seconds after its
beginning. The ramp is longer than what there is of the region, so that the track plays at no time
at the rate itself. -/
def longRamp : TempoRegion Rat where
  start := -2
  stop := 4
  ramp := 10

def slowing : Track Rat where
  position := 0
  title := "First"
  source := ⟨"first.wav"⟩
  duration := 60
  tempoRate := some (3 / 2)
  tempoRegion := some longRamp

end Tempo

end Segue
