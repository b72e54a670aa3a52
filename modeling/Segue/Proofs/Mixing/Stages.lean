import Segue.Proofs.Graph.Checked
import Segue.Proofs.Mixing.Plan

/-!
What the stages of a mix are like. Main statement: every stage of a mix reads engine inputs and
links, makes links, and has as many of both as its first operation takes and gives.
-/

namespace Segue

namespace Effect

variable {α : Type}

/-- How many inputs an operation takes, and how many outputs it gives. -/
def arity : Effect α → Nat × Nat
  | silence => (0, 1)
  | split count => (1, count)
  | append count => (count, 1)
  | crossfade _ _ => (2, 1)
  | _ => (1, 1)

def IsSingle : Effect α → Prop
  | silence | split _ | append _ | crossfade _ _ => False
  | _ => True

theorem IsSingle.arity_eq {effect : Effect α} (h : effect.IsSingle) : effect.arity = (1, 1) := by
  cases effect <;> first | rfl | exact h.elim

theorem IsSingle.ne_split {effect : Effect α} (h : effect.IsSingle) (count : Nat) : effect ≠ .split count := by
  rintro rfl
  exact h

theorem IsSingle.ne_append {effect : Effect α} (h : effect.IsSingle) (count : Nat) : effect ≠ .append count := by
  rintro rfl
  exact h

theorem isSingle_part (start : α) (stop : Option α) : (part start stop).IsSingle := trivial

/-- Operations of which the first makes one signal of one. -/
def StartSingle (effects : List (Effect α)) : Prop := ∀ effect ∈ effects.head?, effect.IsSingle

theorem startSingle_cons {effect : Effect α} (h : effect.IsSingle) (others : List (Effect α)) :
    StartSingle (effect :: others) := by
  rintro _ ⟨⟩
  exact h

end Effect

/-- A pad that stages read: an engine input or a link. -/
def Pad.IsRead (pad : Pad) : Prop := (∃ index, pad = Pad.input index) ∨ ∃ link : Link, pad = link.pad

theorem Link.isRead (link : Link) : link.pad.IsRead := .inr ⟨link, rfl⟩

namespace Stage

variable {α : Type} {stage : Stage (Effect α)}

/-- A stage with the pads that its first operation asks for. -/
structure Fits (stage : Stage (Effect α)) : Prop where
  arity : ∀ effect ∈ stage.filters.head?, effect.arity = (stage.inputs.length, stage.outputs.length)
  /-- There are several signals wherever one is split or some are joined. -/
  several : ∀ count, stage.filters.head? = some (.split count) ∨ stage.filters.head? = some (.append count) →
    2 ≤ count
  reads : ∀ pad ∈ stage.inputs, pad.IsRead
  gives : ∀ pad ∈ stage.outputs, ∃ link : Link, pad = link.pad

theorem fits_between {input : Pad} {effects : List (Effect α)} (hinput : input.IsRead)
    (hsingle : Effect.StartSingle effects) (output : Link) :
    (between input effects output.pad).Fits where
  arity effect heffect := (hsingle effect heffect).arity_eq
  several count hcount := by
    rcases hcount with hsplit | happend
    · exact ((hsingle _ hsplit).ne_split count rfl).elim
    · exact ((hsingle _ happend).ne_append count rfl).elim
  reads pad hpad := by
    rw [List.mem_singleton.mp hpad]
    exact hinput
  gives pad hpad := ⟨output, List.mem_singleton.mp hpad⟩

end Stage

namespace Chain

variable {α : Type}

theorem isRead_of_inside {index : Nat} {pad : Pad} (h : Inside index pad) : pad.IsRead := by
  obtain ⟨part, rfl⟩ := h
  exact Link.isRead _

theorem fits_splitStage {input : Pad} {count : Nat} (index : Nat) (purpose : Purpose) (hinput : input.IsRead)
    (hcount : 2 ≤ count) : (splitStage index purpose count input : Stage (Effect α)).Fits where
  arity effect heffect := by
    cases heffect
    simp [splitStage, Effect.arity]
  several count' hcount' := by
    rcases hcount' with hsplit | happend
    · cases hsplit
      exact hcount
    · cases happend
  reads pad hpad := by
    rw [List.mem_singleton.mp hpad]
    exact hinput
  gives pad hpad := by
    obtain ⟨piece, -, rfl⟩ := List.mem_map.mp hpad
    exact ⟨.inside index (.branch purpose piece), rfl⟩

theorem fits_joinStage {count : Nat} (index : Nat) (purpose : Purpose) (hcount : 2 ≤ count) (output : Link) :
    (joinStage index purpose count output.pad : Stage (Effect α)).Fits where
  arity effect heffect := by
    cases heffect
    simp [joinStage, Effect.arity]
  several count' hcount' := by
    rcases hcount' with hsplit | happend
    · cases hsplit
    · cases happend
      exact hcount
  reads pad hpad := by
    obtain ⟨piece, -, rfl⟩ := List.mem_map.mp hpad
    exact Link.isRead (.inside index (.segment purpose piece))
  gives pad hpad := ⟨output, List.mem_singleton.mp hpad⟩

theorem fits_splitJoin {index : Nat} {purpose : Purpose} {pieces : List (List (Effect α))} {input : Pad}
    (hpieces : pieces ≠ []) (hinput : input.IsRead)
    (hsingle : ∀ effects ∈ pieces, Effect.StartSingle effects) (output : Link) :
    ∀ stage ∈ splitJoin index purpose pieces input output.pad, stage.Fits := by
  intro stage hstage
  by_cases hone : ∃ only, pieces = [only]
  · obtain ⟨only, rfl⟩ := hone
    rw [splitJoin_singleton, List.mem_singleton] at hstage
    rw [hstage]
    exact Stage.fits_between hinput (hsingle only List.mem_cons_self) output
  · have hseveral : ∀ only, pieces ≠ [only] := fun only honly => hone ⟨only, honly⟩
    have hcount : 2 ≤ pieces.length := by
      have hpositive := List.length_pos_of_ne_nil hpieces
      have hlength : pieces.length ≠ 1 := fun h =>
        hone (List.length_eq_one_iff.mp h)
      omega
    rw [splitJoin_of_ne hseveral, List.mem_cons, List.mem_append, List.mem_singleton, pieceStagesFrom,
      List.mem_mapIdx] at hstage
    rcases hstage with rfl | ⟨piece, hpiece, rfl⟩ | rfl
    · exact fits_splitStage index purpose hinput hcount
    · exact Stage.fits_between (Link.isRead (.inside index (.branch purpose (0 + piece))))
        (hsingle _ (List.getElem_mem hpiece)) (.inside index (.segment purpose (0 + piece)))
    · exact fits_joinStage index purpose hcount output

variable [Scalar α] {index : Nat} {track : Track α}

omit [Scalar α] in
theorem startSingle_intervalEffects (interval : Interval α) : Effect.StartSingle (intervalEffects interval) :=
  Effect.startSingle_cons (Effect.isSingle_part _ _) _

theorem startSingle_singleEffects (track : Track α) (interval : Interval α) :
    Effect.StartSingle (singleEffects track interval) := by
  rw [singleEffects]
  split
  · exact Effect.startSingle_cons (Effect.isSingle_part _ _) _
  · exact startSingle_intervalEffects interval

theorem startSingle_stretches (rate : α) : Effect.StartSingle (stretches rate) := by
  intro effect heffect
  obtain ⟨factor, -, rfl⟩ := List.mem_map.mp (List.mem_of_mem_head? heffect)
  trivial

theorem startSingle_rampEffects (piece : Tempo.Piece α) : Effect.StartSingle (rampEffects piece) :=
  Effect.startSingle_cons (Effect.isSingle_part _ _) _

theorem fits_cutStages : ∀ stage ∈ cutStages index track track.kept, stage.Fits := by
  intro stage hstage
  have hinput : (Pad.input index).IsRead := .inl ⟨index, rfl⟩
  cases hkept : track.kept with
  | nil =>
      rw [hkept] at hstage
      rw [List.mem_singleton.mp hstage]
      refine ⟨?_, ?_, nofun, fun pad hpad => ⟨.inside index .cut, List.mem_singleton.mp hpad⟩⟩
      · intro effect heffect
        cases heffect
        rfl
      · rintro count (hsplit | happend)
        · cases hsplit
        · cases happend
  | cons first others =>
      rw [hkept] at hstage
      cases others with
      | nil =>
          rw [List.mem_singleton.mp hstage]
          exact Stage.fits_between hinput (startSingle_singleEffects track first) (.inside index .cut)
      | cons second others =>
          rw [cutStages_cons_cons] at hstage
          have hsingle : ∀ effects ∈ (first :: second :: others).map intervalEffects, Effect.StartSingle effects :=
            List.forall_mem_map.mpr fun interval _ => startSingle_intervalEffects interval
          exact fits_splitJoin (List.cons_ne_nil _ _) hinput hsingle (.inside index .cut) stage hstage

theorem rampPieces_ne_nil (rate start stop length : α) : Tempo.rampPieces rate start stop length ≠ [] := by
  unfold Tempo.rampPieces
  extract_lets regionEnd rampStart lead width ramp
  split
  · exact List.append_ne_nil_of_right_ne_nil _ (List.cons_ne_nil _ _)
  · rename_i hramp
    simp only [not_or, List.isEmpty_iff] at hramp
    exact hramp.2

theorem fits_tempoStages : ∀ stage ∈ (tempoStages index track track.kept (cutPad index)).1, stage.Fits := by
  have hinput : (cutPad index).IsRead := isRead_of_inside ⟨.cut, rfl⟩
  rw [tempoStages]
  cases track.tempoChange? with
  | none => exact List.forall_mem_nil _
  | some rate =>
      cases track.tempoRegion with
      | none =>
          intro stage hstage
          rw [List.mem_singleton.mp hstage]
          exact Stage.fits_between hinput (startSingle_stretches rate) (.inside index .tempo)
      | some region =>
          refine fits_splitJoin ?_ hinput ?_ (.inside index .tempo)
          · exact mt List.map_eq_nil_iff.mp (rampPieces_ne_nil _ _ _ _)
          · exact List.forall_mem_map.mpr fun piece _ => startSingle_rampEffects piece

variable [Decibels α]

theorem isSingle_volumeEffect? {effect : Effect α} (h : volumeEffect? track = some effect) : effect.IsSingle := by
  simp only [volumeEffect?] at h
  split at h
  · cases h
    trivial
  · obtain ⟨factor, -, rfl⟩ := Option.map_eq_some_iff.mp h
    trivial

omit [Scalar α] [Decibels α] in
theorem isSingle_normalizationEffect (options : Options α) (track : Track α) :
    (normalizationEffect options track).IsSingle := by
  simp only [normalizationEffect]
  split <;> trivial

theorem fits_volumeStages : ∀ stage ∈ (volumeStages index track (afterTempo index track)).1, stage.Fits := by
  rw [volumeStages]
  cases hvolume : volumeEffect? track with
  | none => exact List.forall_mem_nil _
  | some effect =>
      intro stage hstage
      rw [List.mem_singleton.mp hstage]
      exact Stage.fits_between (isRead_of_inside (inside_afterTempo index track))
        (Effect.startSingle_cons (isSingle_volumeEffect? hvolume) []) (.inside index .volume)

/-- The stages of a chain fit, whatever link it ends in. -/
theorem fits_stagesTo (options : Options α) (index : Nat) (track : Track α) (output : Link) :
    ∀ stage ∈ stagesTo options index track output.pad, stage.Fits := by
  intro stage hstage
  simp only [stagesTo, List.mem_append, List.mem_singleton] at hstage
  rcases hstage with hstage | hstage | hstage | rfl
  · exact fits_cutStages stage hstage
  · exact fits_tempoStages stage hstage
  · exact fits_volumeStages stage hstage
  · exact Stage.fits_between (isRead_of_inside (inside_afterVolume index track))
      (Effect.startSingle_cons (isSingle_normalizationEffect options track) []) output

end Chain

namespace MixGraph

open Segue.Chain (stagesTo)

variable {α : Type} [Scalar α]

theorem fits_transitionStage (transition : Transition α) {carried next : Pad} (hcarried : carried.IsRead)
    (hnext : next.IsRead) (output : Link) : (transitionStage transition carried next output.pad).Fits where
  arity effect heffect := by
    cases heffect
    rw [transitionEffect]
    split <;> rfl
  several count hcount := by
    simp only [transitionStage, transitionEffect, List.head?_cons, Option.some.injEq] at hcount
    split at hcount
    · rcases hcount with hsplit | happend
      · cases hsplit
      · cases happend
    · rcases hcount with hsplit | happend
      · cases hsplit
      · cases happend
        exact le_refl 2
  reads := by
    intro pad hpad
    rcases List.mem_cons.mp hpad with rfl | hpad
    · exact hcarried
    · rw [List.mem_singleton.mp hpad]
      exact hnext
  gives pad hpad := ⟨output, List.mem_singleton.mp hpad⟩

/-- The stages that join tracks are transitions between what is read. -/
theorem mem_joinFrom {carried : Pad} {number : Nat} {entries : List (Pad × Transition α)} (hcarried : carried.IsRead)
    (hentries : ∀ entry ∈ entries, entry.1.IsRead) {stage : Stage (Effect α)}
    (hstage : stage ∈ joinFrom carried number entries) :
    ∃ (transition : Transition α) (before next : Pad) (output : Link), before.IsRead ∧ next.IsRead ∧
      stage = transitionStage transition before next output.pad := by
  induction entries generalizing carried number with
  | nil => cases hstage
  | cons entry entries ih =>
      have hnext := hentries entry List.mem_cons_self
      cases entries with
      | nil => exact ⟨entry.2, carried, entry.1, .final, hcarried, hnext, List.mem_singleton.mp hstage⟩
      | cons second entries =>
          rw [joinFrom_cons_cons] at hstage
          rcases List.mem_cons.mp hstage with rfl | hstage
          · exact ⟨entry.2, carried, entry.1, .fold number, hcarried, hnext, rfl⟩
          · exact ih (Link.isRead (.fold number)) (fun entry hentry =>
              hentries entry (List.mem_cons_of_mem _ hentry)) hstage

theorem output_of_ofChains {chains : List (Chain (Effect α))} {transitions : List (Transition α)}
    {mix : MixGraph (Effect α)} (h : ofChains chains transitions = .ok mix) :
    Graph.output mix.stages chains.length = .ok mix.output := by
  obtain ⟨first, others, rfl, hcount, rfl⟩ := assemble_of_ofChains h
  rw [ofChains, if_neg (not_not_intro hcount)] at h
  change (Graph.output _ _).bind _ = _ at h
  cases hfound : Graph.output (assemble first others transitions).stages (first :: others).length with
  | error error =>
      rw [hfound] at h
      cases h
  | ok found =>
      rw [hfound] at h
      change (if found = _ then _ else _) = _ at h
      split at h
      · rw [‹found = _›]
      · cases h

variable [Decibels α] {options : Chain.Options α} {entries : List (Track α × Nat)} {transitions : List (Transition α)}
  {mix : MixGraph (Effect α)}

/-- The chains of a mix are those of its tracks, each with a link that it ends in. -/
theorem chains_of_ofChains (h : ofChains (chainsOf options entries) transitions = .ok mix) :
    ∀ chain ∈ mix.chains, ∃ entry ∈ entries, ∃ output : Link,
      chain.stages = stagesTo options entry.2 entry.1 output.pad := by
  obtain ⟨first, others, hchains, -, rfl⟩ := assemble_of_ofChains h
  cases entries with
  | nil => cases hchains
  | cons entry entries =>
      obtain ⟨rfl, rfl⟩ := List.cons.inj hchains
      intro chain hchain
      rw [assemble] at hchain
      split at hchain
      · rw [List.mem_singleton.mp hchain]
        exact ⟨entry, List.mem_cons_self, .final, stages_relabel_ofTrack options _ _ _⟩
      · change chain ∈ chainsOf options (entry :: entries) at hchain
        obtain ⟨other, hother, rfl⟩ := List.mem_map.mp hchain
        exact ⟨other, hother, .chain other.2, Chain.stages_ofTrack options _ _⟩

theorem mem_transitions_of_ofChains (h : ofChains (chainsOf options entries) transitions = .ok mix)
    {stage : Stage (Effect α)} (hstage : stage ∈ mix.transitions) :
    ∃ (transition : Transition α) (before next : Pad) (output : Link), before.IsRead ∧ next.IsRead ∧
      stage = transitionStage transition before next output.pad := by
  obtain ⟨first, others, hchains, -, rfl⟩ := assemble_of_ofChains h
  have hlinks : ∀ chain ∈ first :: others, chain.output.IsRead := by
    intro chain hchain
    rw [← hchains] at hchain
    obtain ⟨entry, -, rfl⟩ := List.mem_map.mp hchain
    exact Link.isRead (.chain entry.2)
  rw [assemble] at hstage
  split at hstage
  · cases hstage
  · refine mem_joinFrom (hlinks first List.mem_cons_self) (fun entry hentry => ?_) hstage
    obtain ⟨chain, hchain, hpad⟩ := List.mem_map.mp (List.of_mem_zip hentry).1
    rw [← hpad]
    exact hlinks chain (List.mem_cons_of_mem _ hchain)

/-- Every stage of a mix has the pads that its first operation asks for. -/
theorem fits_of_ofChains (h : ofChains (chainsOf options entries) transitions = .ok mix) :
    ∀ stage ∈ mix.stages, stage.Fits := by
  intro stage hstage
  rcases List.mem_append.mp hstage with hstage | hstage
  · obtain ⟨chain, hchain, hstage⟩ := List.mem_flatMap.mp hstage
    obtain ⟨entry, -, output, hstages⟩ := chains_of_ofChains h chain hchain
    rw [hstages] at hstage
    exact Chain.fits_stagesTo options _ _ output stage hstage
  · obtain ⟨transition, before, next, output, hbefore, hnext, rfl⟩ := mem_transitions_of_ofChains h hstage
    exact fits_transitionStage transition hbefore hnext output

end MixGraph

end Segue
