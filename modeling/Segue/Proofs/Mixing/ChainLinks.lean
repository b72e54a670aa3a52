import Segue.Proofs.Mixing.Chain

/-!
The labels that the chain of a track makes and reads. Main statements: its outputs are distinct links of
that track and then its output; it reads no engine input but the source of the track, and that once at
most; and every stage has a filter as long as the tempo rate is finite.
-/

namespace Segue.Chain

variable {α : Type} [Scalar α] [Decibels α]

omit [Scalar α] [Decibels α] in
theorem outputs_pieceStagesFrom (index : Nat) (purpose : Purpose) (start : Nat) (pieces : List (List (Effect α))) :
    (pieceStagesFrom index purpose start pieces).outputs =
      (List.range' start pieces.length).map (segment index purpose) := by
  induction pieces generalizing start with
  | nil => rfl
  | cons effects pieces ih =>
      rw [pieceStagesFrom_cons, Graph.outputs_cons, ih, List.length_cons, List.range'_succ, List.map_cons]
      rfl

omit [Scalar α] [Decibels α] in
theorem sources_pieceStagesFrom (index : Nat) (purpose : Purpose) (start : Nat) (pieces : List (List (Effect α))) :
    (pieceStagesFrom index purpose start pieces).sources = [] := by
  induction pieces generalizing start with
  | nil => rfl
  | cons effects pieces ih =>
      have hbranch : (branch index purpose start).inputIndex? = none :=
        Link.inputIndex?_pad (.inside index (.branch purpose start))
      rw [pieceStagesFrom_cons, Graph.sources_cons, ih, List.append_nil, Stage.between,
        List.filterMap_cons_none hbranch, List.filterMap_nil]

/-- The links that cutting into so many pieces and joining them makes, the last of them for the
whole. -/
def splitParts (purpose : Purpose) (count : Nat) (whole : Part) : List Part :=
  if count = 1 then [whole]
  else (List.range count).map (.branch purpose) ++ ((List.range count).map (.segment purpose) ++ [whole])

theorem mem_splitParts {purpose : Purpose} {count : Nat} {whole part : Part}
    (h : part ∈ splitParts purpose count whole) :
    part = whole ∨ ∃ piece, part = .branch purpose piece ∨ part = .segment purpose piece := by
  rw [splitParts] at h
  split at h
  · exact Or.inl (List.mem_singleton.mp h)
  · simp only [List.mem_append, List.mem_map, List.mem_singleton] at h
    rcases h with ⟨piece, -, rfl⟩ | ⟨piece, -, rfl⟩ | rfl
    · exact Or.inr ⟨piece, Or.inl rfl⟩
    · exact Or.inr ⟨piece, Or.inr rfl⟩
    · exact Or.inl rfl

theorem nodup_splitParts {purpose : Purpose} {whole : Part} (count : Nat)
    (hbranch : ∀ piece, whole ≠ .branch purpose piece) (hsegment : ∀ piece, whole ≠ .segment purpose piece) :
    (splitParts purpose count whole).Nodup := by
  rw [splitParts]
  split
  · exact List.nodup_singleton whole
  · have hbranches : ((List.range count).map (Part.branch purpose)).Nodup :=
      List.nodup_range.map fun _ _ h => by simpa using h
    have hsegments : ((List.range count).map (Part.segment purpose)).Nodup :=
      List.nodup_range.map fun _ _ h => by simpa using h
    rw [List.nodup_append', List.nodup_append']
    refine ⟨hbranches, ⟨hsegments, List.nodup_singleton whole, ?_⟩, ?_⟩
    · simpa [List.disjoint_singleton] using fun piece _ h => hsegment piece h.symm
    · intro part hpart hother
      obtain ⟨piece, -, rfl⟩ := List.mem_map.mp hpart
      simp only [List.mem_append, List.mem_map, List.mem_singleton, reduceCtorEq, and_false, exists_false,
        false_or] at hother
      exact hbranch piece hother.symm

def insidePads (index : Nat) (parts : List Part) : List Pad := parts.map fun part => (Link.inside index part).pad

omit [Scalar α] [Decibels α] in
theorem outputs_splitJoin (index : Nat) (purpose : Purpose) (pieces : List (List (Effect α))) (input : Pad)
    (whole : Part) :
    (splitJoin index purpose pieces input (Link.inside index whole).pad).outputs =
      insidePads index (splitParts purpose pieces.length whole) := by
  by_cases hone : ∃ only, pieces = [only]
  · obtain ⟨only, rfl⟩ := hone
    rfl
  · have hseveral : ∀ only, pieces ≠ [only] := fun only honly => hone ⟨only, honly⟩
    have hlength : pieces.length ≠ 1 := by
      intro h
      obtain ⟨only, honly⟩ := List.length_eq_one_iff.mp h
      exact hseveral only honly
    rw [splitJoin_of_ne hseveral, Graph.outputs_cons, Graph.outputs_append, outputs_pieceStagesFrom,
      ← List.range_eq_range', insidePads, splitParts, if_neg hlength, List.map_append, List.map_append,
      List.map_map, List.map_map]
    rfl

omit [Scalar α] [Decibels α] in
theorem sources_splitJoin (index : Nat) (purpose : Purpose) (pieces : List (List (Effect α)))
    (input output : Pad) :
    (splitJoin index purpose pieces input output).sources = [input].filterMap Pad.inputIndex? := by
  by_cases hone : ∃ only, pieces = [only]
  · obtain ⟨only, rfl⟩ := hone
    rw [splitJoin_singleton, Graph.sources_cons]
    exact List.append_nil _
  · have hjoin : ((List.range pieces.length).map (segment index purpose)).filterMap Pad.inputIndex? = [] := by
      rw [List.filterMap_eq_nil_iff]
      intro pad hpad
      obtain ⟨piece, -, rfl⟩ := List.mem_map.mp hpad
      exact Link.inputIndex?_pad (.inside index (.segment purpose piece))
    rw [splitJoin_of_ne fun only honly => hone ⟨only, honly⟩, Graph.sources_cons, Graph.sources_append,
      sources_pieceStagesFrom, Graph.sources_cons, joinStage, hjoin]
    exact List.append_nil _

def tempoParts (track : Track α) : List Part :=
  match track.tempoChange?, track.tempoRegion with
  | none, _ => []
  | some _, none => [.tempo]
  | some rate, some region => splitParts .ramp
      (Tempo.rampPieces rate region.rampStart region.stop (cutLength track.kept)).length .tempo

/-- The links inside the chain of a track, in the order they are made in. -/
def parts (track : Track α) : List Part :=
  splitParts .cut track.kept.length .cut ++ (tempoParts track ++
    if (volumeEffect? track).isSome then [.volume] else [])

theorem nodup_parts (track : Track α) : (parts track).Nodup := by
  have htempo : (tempoParts track).Nodup := by
    rw [tempoParts]
    split
    · exact List.nodup_nil
    · exact List.nodup_singleton _
    · exact nodup_splitParts _ nofun nofun
  have hmem : ∀ part ∈ tempoParts track,
      part = .tempo ∨ ∃ piece, part = .branch .ramp piece ∨ part = .segment .ramp piece := by
    intro part hpart
    rw [tempoParts] at hpart
    split at hpart
    · cases hpart
    · exact Or.inl (List.mem_singleton.mp hpart)
    · exact mem_splitParts hpart
  have hvolume : (if (volumeEffect? track).isSome then [Part.volume] else []).Nodup := by
    split <;> simp
  have hlast : ∀ part ∈ (if (volumeEffect? track).isSome then [Part.volume] else []), part = .volume := by
    intro part hpart
    split at hpart
    · exact List.mem_singleton.mp hpart
    · cases hpart
  rw [parts, List.nodup_append', List.nodup_append']
  refine ⟨nodup_splitParts _ nofun nofun, ⟨htempo, hvolume, ?_⟩, ?_⟩
  · intro part hpart hother
    rcases hmem part hpart with rfl | ⟨piece, rfl | rfl⟩ <;> exact absurd (hlast _ hother) nofun
  · intro part hpart hother
    rcases mem_splitParts hpart with rfl | ⟨piece, rfl | rfl⟩ <;>
      rcases List.mem_append.mp hother with hother | hother
    all_goals first
      | exact absurd (hlast _ hother) nofun
      | rcases hmem _ hother with h | ⟨piece, h | h⟩ <;> cases h

omit [Decibels α] in
theorem outputs_cutStages (index : Nat) (track : Track α) :
    (cutStages index track track.kept).outputs = insidePads index (splitParts .cut track.kept.length .cut) := by
  cases track.kept with
  | nil => rfl
  | cons first others =>
      cases others with
      | nil => rfl
      | cons second others =>
          have hsplit := outputs_splitJoin index .cut ((first :: second :: others).map intervalEffects)
            (Pad.input index) .cut
          rw [List.length_map] at hsplit
          rw [cutStages_cons_cons]
          exact hsplit

omit [Decibels α] in
theorem outputs_tempoStages (index : Nat) (track : Track α) (input : Pad) :
    (tempoStages index track track.kept input).1.outputs = insidePads index (tempoParts track) := by
  rw [tempoStages, tempoParts]
  cases track.tempoChange? with
  | none => rfl
  | some rate =>
      cases track.tempoRegion with
      | none => rfl
      | some region =>
          have hsplit := outputs_splitJoin index .ramp ((Tempo.rampPieces rate region.rampStart region.stop
            (cutLength track.kept)).map rampEffects) input .tempo
          rw [List.length_map] at hsplit
          exact hsplit

theorem outputs_volumeStages (index : Nat) (track : Track α) (input : Pad) :
    (volumeStages index track input).1.outputs =
      insidePads index (if (volumeEffect? track).isSome then [.volume] else []) := by
  rw [volumeStages]
  cases volumeEffect? track <;> rfl

/-- A chain makes its own links, each of them once, and then its output. -/
theorem outputs_stagesTo (options : Options α) (index : Nat) (track : Track α) (output : Pad) :
    (stagesTo options index track output).outputs = insidePads index (parts track) ++ [output] := by
  rw [stagesTo, Graph.outputs_append, Graph.outputs_append, Graph.outputs_append, outputs_cutStages,
    outputs_tempoStages, outputs_volumeStages, parts, insidePads, insidePads, insidePads, insidePads,
    List.map_append, List.map_append, List.append_assoc, List.append_assoc]
  rfl

omit [Scalar α] [Decibels α] in
theorem sources_between {input output : Pad} {effects : List (Effect α)} {indexes : List Nat}
    (h : [input].filterMap Pad.inputIndex? = indexes) :
    Graph.sources [Stage.between input effects output] = indexes := by
  rw [Graph.sources_cons]
  exact (List.append_nil _).trans h

theorem filterMap_inside {index : Nat} {pad : Pad} (h : Inside index pad) :
    [pad].filterMap Pad.inputIndex? = [] := by
  obtain ⟨part, rfl⟩ := h
  rw [List.filterMap_cons_none (Link.inputIndex?_pad _), List.filterMap_nil]

/-- A chain reads the source of its track once, or not at all when nothing of it is kept. -/
theorem sources_stagesTo {index : Nat} (options : Options α) (track : Track α) (output : Pad)
    (hindex : track.kept ≠ [] → index < 2 ^ 64) :
    (stagesTo options index track output).sources = if track.kept = [] then [] else [index] := by
  have hcut : (cutStages index track track.kept).sources = if track.kept = [] then [] else [index] := by
    cases hkept : track.kept with
    | nil => rfl
    | cons first others =>
        have hsource : [Pad.input index].filterMap Pad.inputIndex? = [index] := by
          rw [List.filterMap_cons_some (Pad.inputIndex?_input (hindex (by simp [hkept]))), List.filterMap_nil]
        rw [if_neg (by simp)]
        cases others with
        | nil => exact sources_between hsource
        | cons second others =>
            rw [cutStages_cons_cons, sources_splitJoin, hsource]
  have htempo : (tempoStages index track track.kept (cutPad index)).1.sources = [] := by
    have hinput : [cutPad index].filterMap Pad.inputIndex? = [] := filterMap_inside ⟨.cut, rfl⟩
    rw [tempoStages]
    cases track.tempoChange? with
    | none => rfl
    | some rate =>
        cases track.tempoRegion with
        | none => exact sources_between hinput
        | some region => exact (sources_splitJoin index .ramp _ _ _).trans hinput
  have hvolume : (volumeStages index track (afterTempo index track)).1.sources = [] := by
    rw [volumeStages]
    cases volumeEffect? track with
    | none => rfl
    | some effect => exact sources_between (filterMap_inside (inside_afterTempo index track))
  have hlast : Graph.sources [Stage.between (afterVolume index track) [normalizationEffect options track] output]
      = [] := sources_between (filterMap_inside (inside_afterVolume index track))
  rw [stagesTo, Graph.sources_append, Graph.sources_append, Graph.sources_append, hcut, htempo, hvolume, hlast,
    List.append_nil, List.append_nil, List.append_nil]

omit [Scalar α] [Decibels α] in
theorem filters_splitJoin {index : Nat} {purpose : Purpose} {pieces : List (List (Effect α))} {input output : Pad}
    (heffects : ∀ effects ∈ pieces, effects ≠ []) :
    ∀ stage ∈ splitJoin index purpose pieces input output, stage.filters ≠ [] := by
  intro stage hstage
  by_cases hone : ∃ only, pieces = [only]
  · obtain ⟨only, rfl⟩ := hone
    rw [splitJoin_singleton, List.mem_singleton] at hstage
    rw [hstage]
    exact heffects only List.mem_cons_self
  · rw [splitJoin_of_ne fun only honly => hone ⟨only, honly⟩, List.mem_cons, List.mem_append,
      List.mem_singleton, pieceStagesFrom, List.mem_mapIdx] at hstage
    rcases hstage with rfl | ⟨piece, hpiece, rfl⟩ | rfl
    · exact List.cons_ne_nil _ _
    · exact heffects _ (List.getElem_mem hpiece)
    · exact List.cons_ne_nil _ _

omit [Decibels α] in
theorem stretches_ne_nil {rate : α} (hfinite : Scalar.isFinite rate = true) (hpositive : 0 < rate) :
    stretches rate ≠ [] := by
  have hfactors : Tempo.factors rate ≠ [] := by
    simp only [Tempo.factors, hfinite, hpositive, decide_true, Bool.and_self, if_true]
    split
    · exact List.append_ne_nil_of_right_ne_nil _ (List.cons_ne_nil _ _)
    · rename_i hfound
      simp only [Bool.or_eq_true, not_or, List.isEmpty_iff] at hfound
      exact hfound.1
  simpa [stretches] using hfactors

omit [Decibels α] in
theorem positive_of_tempoChange? {track : Track α} {rate : α} (h : track.tempoChange? = some rate) :
    track.tempoRate = some rate ∧ 0 < rate := by
  obtain ⟨hrate, hchanges⟩ := Option.filter_eq_some_iff.mp h
  simp only [changesTempo, Bool.and_eq_true, decide_eq_true_eq] at hchanges
  exact ⟨hrate, hchanges.1⟩

/-- No stage of a chain is without a filter. -/
theorem filters_stagesTo {index : Nat} {options : Options α} {track : Track α} {output : Pad}
    (hrate : ∀ rate ∈ track.tempoRate, Scalar.isFinite rate = true) :
    ∀ stage ∈ stagesTo options index track output, stage.filters ≠ [] := by
  have hcut : ∀ stage ∈ cutStages index track track.kept, stage.filters ≠ [] := by
    cases track.kept with
    | nil =>
        intro stage hstage
        rw [List.mem_singleton.mp hstage]
        exact List.cons_ne_nil _ _
    | cons first others =>
        cases others with
        | nil =>
            intro stage hstage
            rw [List.mem_singleton.mp hstage]
            show singleEffects track first ≠ []
            rw [singleEffects]
            split <;> exact List.cons_ne_nil _ _
        | cons second others =>
            rw [cutStages_cons_cons]
            apply filters_splitJoin
            intro effects heffects
            obtain ⟨interval, -, rfl⟩ := List.mem_map.mp heffects
            exact List.cons_ne_nil _ _
  have htempo : ∀ stage ∈ (tempoStages index track track.kept (cutPad index)).1, stage.filters ≠ [] := by
    rw [tempoStages]
    cases htempo : track.tempoChange? with
    | none => exact List.forall_mem_nil _
    | some rate =>
        cases track.tempoRegion with
        | none =>
            intro stage hstage
            obtain ⟨hset, hpositive⟩ := positive_of_tempoChange? htempo
            rw [List.mem_singleton.mp hstage]
            exact stretches_ne_nil (hrate rate hset) hpositive
        | some region =>
            apply filters_splitJoin
            intro effects heffects
            obtain ⟨piece, -, rfl⟩ := List.mem_map.mp heffects
            exact List.cons_ne_nil _ _
  have hvolume : ∀ stage ∈ (volumeStages index track (afterTempo index track)).1, stage.filters ≠ [] := by
    rw [volumeStages]
    cases volumeEffect? track with
    | none => exact List.forall_mem_nil _
    | some effect =>
        intro stage hstage
        rw [List.mem_singleton.mp hstage]
        exact List.cons_ne_nil _ _
  intro stage hstage
  simp only [stagesTo, List.mem_append, List.mem_singleton] at hstage
  rcases hstage with hstage | hstage | hstage | rfl
  · exact hcut stage hstage
  · exact htempo stage hstage
  · exact hvolume stage hstage
  · exact List.cons_ne_nil _ _

end Segue.Chain
