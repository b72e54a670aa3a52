import Segue.Proofs.Interval.Canonical
import Segue.Proofs.Mixing.Compiling
import Segue.Proofs.Mixing.Text
import Segue.Proofs.Numeral.Places

/-!
The spans of time that the engine is told of. Main statement: in the text of a plan, every crossfade
is one of the project's with a length, and every part with a start and an end is one that is kept of
a track or a step of its ramp. The length is printed as more than zero just when it is more than
half a microsecond, and the end as more than the start just when the two are nearest to different
microseconds.
-/

namespace Segue

open Segue.Double (value)
open Segue.Numeral (decimal? nearestPlaces)

variable {α : Type}

/-- An operation that is told neither a start with an end nor the length of a crossfade. -/
def Effect.IsSpanless : Effect α → Prop
  | part _ (some _) | crossfade _ _ => False
  | _ => True

/-- The intervals that a track is cut into: what is kept of it, and the steps of its ramp. -/
def Track.cuts [Scalar α] (track : Track α) : List (Interval α) :=
  track.kept ++ match track.tempoChange?, track.tempoRegion with
    | some rate, some region =>
      (Tempo.rampPieces rate region.rampStart region.stop (Chain.cutLength track.kept)).filterMap fun piece =>
        piece.stop.map fun stop => { start := piece.start, stop }
    | _, _ => []

namespace Chain

/-- An operation without a span, or the cut of one of some intervals. -/
def Cuts (intervals : List (Interval α)) (effect : Effect α) : Prop :=
  effect.IsSpanless ∨ ∃ interval ∈ intervals, effect = .part interval.start (some interval.stop)

theorem Cuts.mono {intervals others : List (Interval α)} {effect : Effect α} (h : Cuts intervals effect)
    (hsubset : intervals ⊆ others) : Cuts others effect :=
  h.imp_right fun ⟨interval, hinterval, heffect⟩ => ⟨interval, hsubset hinterval, heffect⟩

theorem cuts_splitJoin {intervals : List (Interval α)} {index : Nat} {purpose : Purpose}
    {pieces : List (List (Effect α))} {input output : Pad}
    (hpieces : ∀ effects ∈ pieces, ∀ effect ∈ effects, Cuts intervals effect) :
    ∀ stage ∈ splitJoin index purpose pieces input output, ∀ effect ∈ stage.filters, Cuts intervals effect := by
  intro stage hstage
  by_cases hone : ∃ only, pieces = [only]
  · obtain ⟨only, rfl⟩ := hone
    rw [splitJoin_singleton, List.mem_singleton] at hstage
    rw [hstage]
    exact hpieces only List.mem_cons_self
  · rw [splitJoin_of_ne fun only honly => hone ⟨only, honly⟩, List.mem_cons, List.mem_append, List.mem_singleton,
      pieceStagesFrom, List.mem_mapIdx] at hstage
    rcases hstage with rfl | ⟨piece, hpiece, rfl⟩ | rfl
    · exact List.forall_mem_singleton.mpr (.inl trivial)
    · exact hpieces _ (List.getElem_mem hpiece)
    · exact List.forall_mem_singleton.mpr (.inl trivial)

theorem cuts_intervalEffects {intervals : List (Interval α)} {interval : Interval α} (h : interval ∈ intervals) :
    ∀ effect ∈ intervalEffects interval, Cuts intervals effect :=
  List.forall_mem_cons.mpr ⟨.inr ⟨interval, h, rfl⟩, List.forall_mem_singleton.mpr (.inl trivial)⟩

variable [Scalar α] {index : Nat} {track : Track α}

theorem cuts_cutStages :
    ∀ stage ∈ cutStages index track track.kept, ∀ effect ∈ stage.filters, Cuts track.kept effect := by
  intro stage hstage
  cases hkept : track.kept with
  | nil =>
      rw [hkept] at hstage
      rw [List.mem_singleton.mp hstage]
      exact List.forall_mem_cons.mpr ⟨.inl trivial, List.forall_mem_singleton.mpr (.inl trivial)⟩
  | cons first others =>
      rw [hkept] at hstage
      cases others with
      | nil =>
          rw [List.mem_singleton.mp hstage]
          change ∀ effect ∈ singleEffects track first, _
          rw [singleEffects]
          split
          · exact List.forall_mem_cons.mpr ⟨.inl trivial, List.forall_mem_singleton.mpr (.inl trivial)⟩
          · exact cuts_intervalEffects List.mem_cons_self
      | cons second others =>
          rw [cutStages_cons_cons] at hstage
          refine cuts_splitJoin (List.forall_mem_map.mpr fun interval hinterval => ?_) stage hstage
          exact cuts_intervalEffects hinterval

theorem spanless_stretches (rate : α) : ∀ effect ∈ stretches rate, effect.IsSpanless := by
  intro effect heffect
  obtain ⟨factor, -, rfl⟩ := List.mem_map.mp heffect
  trivial

theorem cuts_tempoStages (input : Pad) :
    ∀ stage ∈ (tempoStages index track track.kept input).1, ∀ effect ∈ stage.filters, Cuts track.cuts effect := by
  rw [tempoStages, Track.cuts]
  cases track.tempoChange? with
  | none => exact List.forall_mem_nil _
  | some rate =>
      cases track.tempoRegion with
      | none => exact List.forall_mem_singleton.mpr fun effect heffect => .inl (spanless_stretches rate effect heffect)
      | some region =>
          refine cuts_splitJoin (List.forall_mem_map.mpr fun piece hpiece effect heffect => ?_)
          rcases List.mem_append.mp heffect with heffect | heffect
          · rcases List.mem_cons.mp heffect with rfl | heffect
            · cases hstop : piece.stop with
              | none => exact .inl trivial
              | some stop =>
                  refine .inr ⟨⟨piece.start, stop⟩, List.mem_append_right _ (List.mem_filterMap.mpr ?_), rfl⟩
                  exact ⟨piece, hpiece, by rw [hstop, Option.map_some]⟩
            · rw [List.mem_singleton.mp heffect]
              exact .inl trivial
          · split at heffect
            · exact .inl (spanless_stretches _ effect heffect)
            · cases heffect

variable [Decibels α]

theorem cuts_volumeStages (input : Pad) :
    ∀ stage ∈ (volumeStages index track input).1, ∀ effect ∈ stage.filters, Cuts track.cuts effect := by
  rw [volumeStages]
  cases hvolume : volumeEffect? track with
  | none => exact List.forall_mem_nil _
  | some effect =>
      refine List.forall_mem_singleton.mpr (List.forall_mem_singleton.mpr (.inl ?_))
      simp only [volumeEffect?] at hvolume
      split at hvolume
      · cases hvolume
        trivial
      · obtain ⟨factor, -, rfl⟩ := Option.map_eq_some_iff.mp hvolume
        trivial

/-- Whatever part a chain takes from one time to another is one of the intervals that its track is
cut into. -/
theorem cuts_stagesTo (options : Options α) (index : Nat) (track : Track α) (output : Pad) :
    ∀ stage ∈ stagesTo options index track output, ∀ effect ∈ stage.filters, Cuts track.cuts effect := by
  intro stage hstage
  simp only [stagesTo, List.mem_append, List.mem_singleton] at hstage
  rcases hstage with hstage | hstage | hstage | rfl
  · exact fun effect heffect => (cuts_cutStages stage hstage effect heffect).mono (List.subset_append_left _ _)
  · exact cuts_tempoStages _ stage hstage
  · exact cuts_volumeStages _ stage hstage
  · refine List.forall_mem_singleton.mpr (.inl ?_)
    rw [normalizationEffect]
    split <;> trivial

end Chain

namespace MixGraph

variable [Scalar α]

/-- The stages that join chains are the transitions between them. -/
theorem IsFold.exists_transition {mix : MixGraph (Effect α)} {chains : List (Chain (Effect α))}
    {transitions : List (Transition α)} (h : mix.IsFold chains transitions) {stage : Stage (Effect α)}
    (hstage : stage ∈ mix.transitions) : ∃ transition ∈ transitions, stage.filters = [transitionEffect transition] := by
  obtain ⟨place, hplace, rfl⟩ := List.getElem_of_mem hstage
  have hlt : place < transitions.length := h.transition_count ▸ hplace
  obtain ⟨_, before, next, label, -, -, -, hstage⟩ := h.joins place _ (List.getElem?_eq_getElem hlt)
  rw [List.getElem?_eq_getElem hplace, Option.some.injEq] at hstage
  exact ⟨_, List.getElem_mem hlt, by rw [hstage]; rfl⟩

variable [Decibels α]

/-- Where an operation of a mix has its span from, if it has one. -/
theorem span_of_ofChains {options : Chain.Options α} {entries : List (Track α × Nat)}
    {transitions : List (Transition α)} {mix : MixGraph (Effect α)}
    (h : ofChains (chainsOf options entries) transitions = .ok mix) {stage : Stage (Effect α)}
    (hstage : stage ∈ mix.stages) {effect : Effect α} (heffect : effect ∈ stage.filters) :
    effect.IsSpanless ∨
      (∃ entry ∈ entries, ∃ interval ∈ entry.1.cuts, effect = .part interval.start (some interval.stop)) ∨
      ∃ transition ∈ transitions, 0 < transition.duration ∧
        effect = .crossfade transition.duration transition.curve := by
  rcases List.mem_append.mp hstage with hstage | hstage
  · obtain ⟨chain, hchain, hstage⟩ := List.mem_flatMap.mp hstage
    obtain ⟨entry, hentry, output, hstages⟩ := chains_of_ofChains h chain hchain
    rw [hstages] at hstage
    exact (Chain.cuts_stagesTo options _ _ output.pad stage hstage effect heffect).imp_right fun hcut =>
      .inl ⟨entry, hentry, hcut⟩
  · obtain ⟨transition, htransition, hfilters⟩ := (isFold_of_ofChains h).exists_transition hstage
    rw [hfilters, List.mem_singleton, transitionEffect] at heffect
    split at heffect
    · exact .inr (.inr ⟨transition, htransition, ‹_›, heffect⟩)
    · rw [heffect]
      exact .inl trivial

end MixGraph

namespace Filter

def number? (filter : Filter) (key : String) : Option Rat :=
  (filter.get? key).bind fun text => decimal? text.toList

/-- A number above zero is printed for an option. -/
def PrintsPositive (filter : Filter) (key : String) : Prop := ∃ number, filter.number? key = some number ∧ 0 < number

/-- A start is printed, and an end behind it. -/
def PrintsForward (filter : Filter) : Prop :=
  ∃ start stop, filter.number? "start" = some start ∧ filter.number? "end" = some stop ∧ start < stop

end Filter

namespace Effect

theorem decimal?_number {x : Float} (h : x.isFinite = true) :
    decimal? (Envelope.number x).toList = some (nearestPlaces 6 x) :=
  Numeral.decimal?_write (by decide) h

theorem decimal?_number_of_not_isFinite {x : Float} (h : x.isFinite = false) :
    decimal? (Envelope.number x).toList = none := Numeral.decimal?_write_of_not_isFinite _ h

theorem printsPositive_crossfade_iff (duration : Float) (curve : Curve) :
    (crossfade duration curve).filter.PrintsPositive "d" ↔
      duration.isFinite = true ∧ 1 / 2 / 10 ^ 6 < value duration := by
  have hnumber : (crossfade duration curve).filter.number? "d" = decimal? (Envelope.number duration).toList := rfl
  rw [Filter.PrintsPositive, hnumber, ← Numeral.nearestPlaces_pos_iff]
  cases hfinite : duration.isFinite with
  | false => simp [decimal?_number_of_not_isFinite hfinite]
  | true => simp [decimal?_number hfinite]

theorem printsForward_part_iff (interval : Interval Float) :
    (part interval.start (some interval.stop)).filter.PrintsForward ↔
      interval.IsFinite ∧ nearestPlaces 6 interval.start < nearestPlaces 6 interval.stop := by
  have hstart : (part interval.start (some interval.stop)).filter.number? "start" =
      decimal? (Envelope.number interval.start).toList := rfl
  have hstop : (part interval.start (some interval.stop)).filter.number? "end" =
      decimal? (Envelope.number interval.stop).toList := rfl
  rw [Filter.PrintsForward, hstart, hstop]
  constructor
  · rintro ⟨start, stop, hstart, hstop, hlt⟩
    have hfinite : interval.IsFinite := by
      constructor
      · by_contra hnone
        rw [decimal?_number_of_not_isFinite (Bool.eq_false_of_not_eq_true hnone)] at hstart
        cases hstart
      · by_contra hnone
        rw [decimal?_number_of_not_isFinite (Bool.eq_false_of_not_eq_true hnone)] at hstop
        cases hstop
    rw [decimal?_number hfinite.start, Option.some.injEq] at hstart
    rw [decimal?_number hfinite.stop, Option.some.injEq] at hstop
    exact ⟨hfinite, hstart ▸ hstop ▸ hlt⟩
  · rintro ⟨hfinite, hlt⟩
    exact ⟨_, _, decimal?_number hfinite.start, decimal?_number hfinite.stop, hlt⟩

/-- An operation without a span is told from the others by its filter. -/
theorem IsSpanless.filter_ne {effect : Effect Float} (h : effect.IsSpanless) :
    effect.filter.name ≠ "acrossfade" ∧ (effect.filter.get? "start" = none ∨ effect.filter.get? "end" = none) := by
  cases effect with
  | part start stop =>
      cases stop with
      | none => exact ⟨by simp [filter], .inr rfl⟩
      | some stop => exact h.elim
  | crossfade duration curve => exact h.elim
  | _ => exact ⟨by simp [filter], .inl rfl⟩

end Effect

/-- Every transition with a length is told to the engine as a crossfade. -/
theorem Mix.exists_crossfade {mix : Mix Float} {settings : ExportSettings} {output : Path} {plan : RenderPlan}
    (hplan : mix.plan settings output = .ok plan) {transition : Transition Float}
    (h : transition ∈ mix.project.transitions settings.defaultCrossfade) (hpositive : 0 < transition.duration) :
    ∃ stage ∈ Graph.read plan.graph.text,
      (Effect.crossfade transition.duration transition.curve).filter ∈ stage.filters := by
  obtain ⟨place, hplace⟩ := List.getElem?_of_mem h
  obtain ⟨_, _, _, _, -, -, -, hstage⟩ :=
    (MixGraph.isFold_of_ofChains (Mix.ofChains_of_plan hplan).1).joins place transition hplace
  rw [Mix.read_of_plan hplan]
  refine ⟨_, List.mem_map_of_mem (List.mem_append_right _ (List.mem_of_getElem? hstage)), ?_⟩
  have heffect : MixGraph.transitionEffect transition = .crossfade transition.duration transition.curve :=
    if_pos hpositive
  rw [← heffect]
  exact List.mem_cons_self

/-- Every crossfade that the engine is told of is a transition of the project with a length, and its
length is printed as more than zero just when it is finite and more than half a microsecond. Every
part with a start and an end is one that a track is cut into, and its end is printed behind its
start just when both are finite and nearest to different microseconds, which they are when they lie
more than one apart. -/
theorem Mix.spans_of_plan {mix : Mix Float} {settings : ExportSettings} {output : Path} {plan : RenderPlan}
    (hplan : mix.plan settings output = .ok plan) :
    ∀ stage ∈ Graph.read plan.graph.text, ∀ filter ∈ stage.filters,
      (filter.name = "acrossfade" →
        ∃ transition ∈ mix.project.transitions settings.defaultCrossfade, 0 < transition.duration ∧
          filter = (Effect.crossfade transition.duration transition.curve).filter ∧
          (filter.PrintsPositive "d" ↔
            transition.duration.isFinite = true ∧ 1 / 2 / 10 ^ 6 < value transition.duration)) ∧
      (filter.name = "atrim" → filter.get? "start" ≠ none → filter.get? "end" ≠ none →
        ∃ track ∈ mix.project.tracks, ∃ interval ∈ track.cuts,
          filter = (Effect.part interval.start (some interval.stop)).filter ∧
          (filter.PrintsForward ↔
            interval.IsFinite ∧ nearestPlaces 6 interval.start < nearestPlaces 6 interval.stop) ∧
          (interval.IsFinite → value interval.start + 1 / 10 ^ 6 < value interval.stop → filter.PrintsForward)) := by
  have hgraph := (Mix.ofChains_of_plan hplan).1
  rw [Project.chains_eq] at hgraph
  rw [Mix.read_of_plan hplan]
  intro stage hstage filter hfilter
  obtain ⟨effects, heffects, rfl⟩ := List.mem_map.mp hstage
  obtain ⟨effect, heffect, rfl⟩ := List.mem_map.mp hfilter
  rcases MixGraph.span_of_ofChains hgraph heffects heffect with hnone | ⟨entry, hentry, interval, hinterval, rfl⟩ |
    ⟨transition, htransition, hpositive, rfl⟩
  · obtain ⟨hname, hoptions⟩ := hnone.filter_ne
    exact ⟨fun hcrossfade => absurd hcrossfade hname,
      fun _ hstart hstop => absurd hoptions (not_or.mpr ⟨hstart, hstop⟩)⟩
  · have htrack : entry.1 ∈ mix.project.tracks := List.fst_mem_of_mem_zipIdx hentry
    have hforward := Effect.printsForward_part_iff interval
    refine ⟨fun hname => absurd hname (by simp [Effect.filter]), fun _ _ _ => ⟨entry.1, htrack, interval, hinterval,
      rfl, hforward, fun hfinite hapart => ?_⟩⟩
    exact hforward.mpr ⟨hfinite, Numeral.nearestPlaces_lt hapart⟩
  · exact ⟨fun _ => ⟨transition, htransition, hpositive, rfl, Effect.printsPositive_crossfade_iff _ _⟩,
      fun hname => absurd hname (by simp [Effect.filter])⟩

/-- The tracks that overlap by four seconds are printed so, and so are the first thirty seconds of
the one that is cut. -/
theorem Mix.spans_of_plan_twoTracks :
    ∃ plan, Mix.twoTracks.plan { normalize := true } ⟨"/music/night.flac"⟩ = .ok plan ∧
      (∃ stage ∈ Graph.read plan.graph.text, ∃ filter ∈ stage.filters,
        filter.name = "acrossfade" ∧ filter.PrintsPositive "d" ∧
          ∃ transition ∈ Mix.twoTracks.project.transitions 0.0, 1 / 2 / 10 ^ 6 < value transition.duration) ∧
      ∃ stage ∈ Graph.read plan.graph.text, ∃ filter ∈ stage.filters,
        filter.name = "atrim" ∧ filter.get? "start" ≠ none ∧ filter.get? "end" ≠ none ∧ filter.PrintsForward ∧
          ∃ track ∈ Mix.twoTracks.project.tracks, ∃ interval ∈ track.cuts, interval.IsFinite ∧
            nearestPlaces 6 interval.start < nearestPlaces 6 interval.stop := by
  have hparts : ∃ plan ∈ (Mix.twoTracks.plan { normalize := true } ⟨"/music/night.flac"⟩).toOption,
      ∃ stage ∈ Graph.filters plan.graph.stages, ∃ filter ∈ stage.filters,
        filter.name = "atrim" ∧ filter.get? "start" ≠ none ∧ filter.get? "end" ≠ none ∧
          filter.number? "start" = some 0 ∧ filter.number? "end" = some 30 := by
    decide +kernel
  obtain ⟨plan, hplan⟩ := Mix.exists_plan_twoTracks ⟨"/music/night.flac"⟩
  rw [hplan] at hparts
  obtain ⟨_, ⟨⟩, cut, hcut, trim, htrim, hname, hstart, hend, hfrom, hto⟩ := hparts
  refine ⟨plan, hplan, ?_, ?_⟩
  · have hfour : (0 : Float) < Scalar.atLeast 0 4 := by decide +kernel
    have hmem : ⟨Scalar.atLeast 0 4, .linear⟩ ∈ Mix.twoTracks.project.transitions 0.0 := List.mem_cons_self
    obtain ⟨stage, hstage, hfilter⟩ := Mix.exists_crossfade hplan hmem hfour
    have hnumber : (Effect.crossfade (Scalar.atLeast 0 4) .linear).filter.number? "d" = some 4 := by decide +kernel
    have hpositive : (Effect.crossfade (Scalar.atLeast 0 4) .linear).filter.PrintsPositive "d" :=
      ⟨4, hnumber, by norm_num⟩
    obtain ⟨transition, htransition, -, -, hprinted⟩ := (Mix.spans_of_plan hplan stage hstage _ hfilter).1 rfl
    exact ⟨stage, hstage, _, hfilter, rfl, hpositive, transition, htransition, (hprinted.mp hpositive).2⟩
  · have hforward : trim.PrintsForward := ⟨0, 30, hfrom, hto, by norm_num⟩
    rw [← Mix.read_of_plan hplan] at hcut
    obtain ⟨track, htrack, interval, hinterval, -, hprinted, -⟩ :=
      (Mix.spans_of_plan hplan cut hcut trim htrim).2 hname hstart hend
    exact ⟨cut, hcut, trim, htrim, hname, hstart, hend, hforward, track, htrack, interval, hinterval,
      hprinted.mp hforward⟩

/-- Two tracks that overlap by a tenth of a microsecond. -/
def Mix.barelyOverlapping : Mix Float where
  root := ⟨"/music"⟩
  file := ⟨"/music/project.json"⟩
  project :=
    { version := "1.0", name := "Night"
      tracks := [
        { position := 0, title := "First", source := ⟨"first.wav"⟩, duration := 120, crossfade := some 1e-7 },
        { position := 1, title := "Second", source := ⟨"second.wav"⟩, duration := 120 }] }

/-- A crossfade with a length is printed without one. -/
theorem Mix.erased_barelyOverlapping :
    Mix.barelyOverlapping.project.IsFinite ∧
      ∃ plan, Mix.barelyOverlapping.plan {} ⟨"/music/night.flac"⟩ = .ok plan ∧
        ∃ stage ∈ Graph.read plan.graph.text, ∃ filter ∈ stage.filters,
          filter.name = "acrossfade" ∧ filter.number? "d" = some 0 := by
  have hfinite : Mix.barelyOverlapping.project.IsFinite := by decide +kernel
  obtain ⟨plan, hplan⟩ := @Mix.exists_plan Mix.barelyOverlapping
    ⟨List.cons_ne_nil _ _, by decide, fun _ htrack => hfinite.tempoRate htrack⟩ {} ⟨"/music/night.flac"⟩
  have hsome : (0 : Float) < Scalar.atLeast 0 1e-7 := by decide +kernel
  have hmem : ⟨Scalar.atLeast 0 1e-7, .linear⟩ ∈ Mix.barelyOverlapping.project.transitions 0.0 := List.mem_cons_self
  obtain ⟨stage, hstage, hfilter⟩ := Mix.exists_crossfade hplan hmem hsome
  exact ⟨hfinite, plan, hplan, stage, hstage, _, hfilter, rfl, by decide +kernel⟩

end Segue
