import Segue.Proofs.Graph.Labels
import Segue.Proofs.Mixing.Signal

/-!
What the chain of a track does. Main statement: whatever other links are open, the stages of the chain
leave one more, and it carries what is heard of the track.
-/

namespace Segue

namespace Signal

variable {α : Type}

theorem result_reading {effects : List (Effect α)} (inputs : List (Signal α))
    (h : ∀ count, effects ≠ [.split count]) : reading.result effects inputs = filtered effects inputs := by
  simp only [reading]
  split
  · exact absurd rfl (h _)
  · rfl

end Signal

namespace Chain

open Signal (reading)

variable {α : Type} {carried rest : Carried (Signal α)} {input output : Pad} {signal : Signal α}

/-- A stage from one pad to another puts its effects behind what it takes. -/
theorem evaluate?_between {effects : List (Effect α)} (output : Pad)
    (htake : carried.take? reading input = some (signal, rest)) (heffects : ∀ count, effects ≠ [.split count]) :
    (Stage.between input effects output).evaluate? reading carried =
      some (rest ++ [(output, signal.through effects)]) := by
  rw [Stage.evaluate?, Stage.between, Carried.takeAll?_cons htake]
  show some (rest ++ [(output, reading.result effects [signal])]) = _
  rw [Signal.result_reading _ heffects]
  rfl

/-- The copies of a signal from one of a given number on. -/
def copies (index : Nat) (purpose : Purpose) (signal : Signal α) (start count : Nat) : Carried (Signal α) :=
  (List.range' start count).map fun piece => (branch index purpose piece, signal)

theorem copies_succ (index : Nat) (purpose : Purpose) (signal : Signal α) (start count : Nat) :
    copies index purpose signal start (count + 1) =
      (branch index purpose start, signal) :: copies index purpose signal (start + 1) count := by
  rw [copies, List.range'_succ, List.map_cons, copies]

/-- What is made of the pieces, the first of which has a given number. -/
def madeOf (index : Nat) (purpose : Purpose) (signal : Signal α) (start : Nat)
    (pieces : List (List (Effect α))) : Carried (Signal α) :=
  pieces.mapIdx fun piece effects => (segment index purpose (start + piece), signal.through effects)

theorem madeOf_cons (index : Nat) (purpose : Purpose) (signal : Signal α) (start : Nat)
    (effects : List (Effect α)) (pieces : List (List (Effect α))) :
    madeOf index purpose signal start (effects :: pieces) =
      (segment index purpose start, signal.through effects) ::
        madeOf index purpose signal (start + 1) pieces := by
  rw [madeOf, List.mapIdx_cons, madeOf]
  simp only [Nat.add_zero, Nat.add_assoc, Nat.add_comm 1]

theorem pads_madeOf (index : Nat) (purpose : Purpose) (signal : Signal α) (start : Nat)
    (pieces : List (List (Effect α))) :
    (madeOf index purpose signal start pieces).pads =
      (List.range' start pieces.length).map (segment index purpose) := by
  induction pieces generalizing start with
  | nil => rfl
  | cons effects pieces ih =>
      rw [madeOf_cons, List.length_cons, List.range'_succ, List.map_cons, ← ih]
      rfl

theorem signals_madeOf (index : Nat) (purpose : Purpose) (signal : Signal α) (start : Nat)
    (pieces : List (List (Effect α))) :
    (madeOf index purpose signal start pieces).map Prod.snd = pieces.map signal.through := by
  induction pieces generalizing start with
  | nil => rfl
  | cons effects pieces ih => rw [madeOf_cons, List.map_cons, ih, List.map_cons]

/-- The stages of the pieces, the first of which has a given number. -/
def pieceStagesFrom (index : Nat) (purpose : Purpose) (start : Nat) (pieces : List (List (Effect α))) :
    Graph (Effect α) :=
  pieces.mapIdx fun piece effects =>
    Stage.between (branch index purpose (start + piece)) effects (segment index purpose (start + piece))

theorem pieceStagesFrom_cons (index : Nat) (purpose : Purpose) (start : Nat) (effects : List (Effect α))
    (pieces : List (List (Effect α))) :
    pieceStagesFrom index purpose start (effects :: pieces) =
      Stage.between (branch index purpose start) effects (segment index purpose start) ::
        pieceStagesFrom index purpose (start + 1) pieces := by
  rw [pieceStagesFrom, List.mapIdx_cons, pieceStagesFrom]
  simp only [Nat.add_zero, Nat.add_assoc, Nat.add_comm 1]

theorem pieceStages_eq (index : Nat) (purpose : Purpose) (pieces : List (List (Effect α))) :
    pieceStages index purpose pieces = pieceStagesFrom index purpose 0 pieces := by
  simp only [pieceStages, pieceStagesFrom, Nat.zero_add]

def splitStage (index : Nat) (purpose : Purpose) (count : Nat) (input : Pad) : Stage (Effect α) where
  inputs := [input]
  filters := [.split count]
  outputs := (List.range count).map (branch index purpose)

def joinStage (index : Nat) (purpose : Purpose) (count : Nat) (output : Pad) : Stage (Effect α) where
  inputs := (List.range count).map (segment index purpose)
  filters := [.append count]
  outputs := [output]

theorem splitJoin_singleton (index : Nat) (purpose : Purpose) (only : List (Effect α)) (input output : Pad) :
    splitJoin index purpose [only] input output = [Stage.between input only output] := rfl

theorem splitJoin_of_ne {index : Nat} {purpose : Purpose} {pieces : List (List (Effect α))}
    (h : ∀ only, pieces ≠ [only]) (input output : Pad) :
    splitJoin index purpose pieces input output =
      splitStage index purpose pieces.length input :: (pieceStagesFrom index purpose 0 pieces ++
        [joinStage index purpose pieces.length output]) := by
  rw [splitJoin.eq_def]
  split
  · exact absurd rfl (h _)
  · rw [pieceStages_eq]
    rfl

/-- No link that is open here belongs inside the chain of a track. -/
def Unused (index : Nat) (carried : Carried (Signal α)) : Prop :=
  ∀ part, (Link.inside index part).pad ∉ carried.pads

/-- Each piece is made of its own copy, and the copies are used up in order. -/
theorem evaluate?_pieceStagesFrom {index : Nat} {pieces : List (List (Effect α))} (purpose : Purpose)
    (signal : Signal α) (hunused : Unused index carried)
    (heffects : ∀ effects ∈ pieces, ∀ count, effects ≠ [.split count])
    (start : Nat) (made : Carried (Signal α)) :
    Graph.evaluate? reading (pieceStagesFrom index purpose start pieces)
        (carried ++ (copies index purpose signal start pieces.length ++ made)) =
      some (carried ++ (made ++ madeOf index purpose signal start pieces)) := by
  induction pieces generalizing start made with
  | nil =>
      rw [madeOf, List.mapIdx_nil, List.append_nil]
      rfl
  | cons effects pieces ih =>
      have htake : Carried.take? reading (carried ++ (branch index purpose start, signal) ::
          (copies index purpose signal (start + 1) pieces.length ++ made)) (branch index purpose start) =
          some (signal, carried ++ (copies index purpose signal (start + 1) pieces.length ++ made)) :=
        Carried.take?_append (Link.inputIndex?_pad (.inside index (.branch purpose start)))
          (hunused (.branch purpose start))
      have hstage := evaluate?_between (segment index purpose start) htake
        (heffects effects List.mem_cons_self)
      have ih := ih (fun effects h => heffects effects (List.mem_cons_of_mem _ h)) (start + 1)
        (made ++ [(segment index purpose start, signal.through effects)])
      rw [pieceStagesFrom_cons, Graph.evaluate?_cons, madeOf_cons, List.length_cons, copies_succ,
        List.cons_append, hstage, Option.bind_some]
      simpa only [List.append_assoc, List.singleton_append] using ih

theorem joined_of_ne {signals : List (Signal α)} (h : ∀ only, signals ≠ [only]) :
    Signal.joined signals = .filtered [.append signals.length] signals := by
  rw [Signal.joined.eq_def]
  split
  · exact absurd rfl (h _)
  · rfl

theorem evaluate?_splitStage (index : Nat) (purpose : Purpose) (count : Nat)
    (htake : carried.take? reading input = some (signal, rest)) :
    (splitStage index purpose count input).evaluate? reading carried =
      some (rest ++ copies index purpose signal 0 count) := by
  rw [Stage.evaluate?, splitStage, Carried.takeAll?_cons htake, copies, ← List.range_eq_range']
  show some (rest ++ ((List.range count).map (branch index purpose)).map fun output => (output, signal)) = _
  rw [List.map_map]
  rfl

theorem evaluate?_joinStage {index : Nat} (purpose : Purpose) (pieces : List (List (Effect α)))
    (output : Pad) (hunused : Unused index rest) :
    (joinStage index purpose pieces.length output).evaluate? reading
        (rest ++ madeOf index purpose signal 0 pieces) =
      some (rest ++ [(output, .filtered [.append pieces.length] (pieces.map signal.through))]) := by
  have hpads := pads_madeOf index purpose signal 0 pieces
  rw [← List.range_eq_range'] at hpads
  have hmem : ∀ pad ∈ (madeOf index purpose signal 0 pieces).pads,
      ∃ piece, (Link.inside index (.segment purpose piece)).pad = pad := by
    intro pad hpad
    rw [hpads] at hpad
    obtain ⟨piece, -, rfl⟩ := List.mem_map.mp hpad
    exact ⟨piece, rfl⟩
  have hlinks : ∀ pad ∈ (madeOf index purpose signal 0 pieces).pads, pad.inputIndex? = none := by
    intro pad hpad
    obtain ⟨piece, rfl⟩ := hmem pad hpad
    exact Link.inputIndex?_pad _
  have hfresh : ∀ pad ∈ (madeOf index purpose signal 0 pieces).pads, pad ∉ rest.pads := by
    intro pad hpad
    obtain ⟨piece, rfl⟩ := hmem pad hpad
    exact hunused _
  have htake := Carried.takeAll?_append reading rest (madeOf index purpose signal 0 pieces) [] hlinks hfresh
  rw [hpads, signals_madeOf, List.append_nil, List.append_nil] at htake
  rw [Stage.evaluate?, joinStage, htake]
  show some (rest ++ [(output, reading.result [.append pieces.length] (pieces.map signal.through))]) = _
  rw [Signal.result_reading _ (by simp)]

/-- What is cut into pieces and joined again is the pieces one after the other. -/
theorem evaluate?_splitJoin {index : Nat} {pieces : List (List (Effect α))} (purpose : Purpose) (output : Pad)
    (htake : carried.take? reading input = some (signal, rest)) (hunused : Unused index rest)
    (heffects : ∀ effects ∈ pieces, ∀ count, effects ≠ [.split count]) :
    Graph.evaluate? reading (splitJoin index purpose pieces input output) carried =
      some (rest ++ [(output, .joined (pieces.map signal.through))]) := by
  by_cases hone : ∃ only, pieces = [only]
  · obtain ⟨only, rfl⟩ := hone
    rw [splitJoin_singleton, Graph.evaluate?_cons,
      evaluate?_between output htake (heffects only List.mem_cons_self)]
    rfl
  · have hseveral : ∀ only, pieces ≠ [only] := fun only honly => hone ⟨only, honly⟩
    have hjoined : Signal.joined (pieces.map signal.through) =
        .filtered [.append pieces.length] (pieces.map signal.through) := by
      rw [joined_of_ne, List.length_map]
      intro only honly
      obtain ⟨effects, rfl, -⟩ := List.map_eq_singleton_iff.mp honly
      exact hseveral effects rfl
    have hpieces := evaluate?_pieceStagesFrom purpose signal hunused heffects 0 []
    rw [List.append_nil, List.nil_append] at hpieces
    rw [splitJoin_of_ne hseveral, Graph.evaluate?_cons, evaluate?_splitStage index purpose _ htake,
      Option.bind_some, Graph.evaluate?_append, hpieces, Option.bind_some, Graph.evaluate?_cons,
      evaluate?_joinStage purpose pieces output hunused, hjoined]
    rfl

def Inside (index : Nat) (pad : Pad) : Prop := ∃ part, (Link.inside index part).pad = pad

theorem take?_last {index : Nat} {pad : Pad} (hinside : Inside index pad) (hunused : Unused index carried) :
    Carried.take? reading (carried ++ [(pad, signal)]) pad = some (signal, carried) := by
  obtain ⟨part, rfl⟩ := hinside
  exact Carried.take?_concat signal (Link.inputIndex?_pad (.inside index part)) (hunused part)

theorem stretches_ne_split [Scalar α] (rate : α) (count : Nat) : stretches rate ≠ [.split count] := by
  intro h
  obtain ⟨_, -, hstretch⟩ := List.map_eq_singleton_iff.mp h
  cases hstretch

theorem rampEffects_ne_split [Scalar α] (piece : Tempo.Piece α) (count : Nat) :
    rampEffects piece ≠ [.split count] := by
  simp [rampEffects]

theorem singleEffects_ne_split [Scalar α] (track : Track α) (interval : Interval α) (count : Nat) :
    singleEffects track interval ≠ [.split count] := by
  rw [singleEffects]
  split <;> simp [intervalEffects]

theorem volumeEffect?_ne_split [Scalar α] [Decibels α] {track : Track α} {effect : Effect α}
    (h : volumeEffect? track = some effect) (count : Nat) : [effect] ≠ [.split count] := by
  rintro ⟨⟩
  simp only [volumeEffect?] at h
  split at h
  · cases h
  · obtain ⟨_, -, hamplify⟩ := Option.map_eq_some_iff.mp h
    cases hamplify

theorem normalizationEffect_ne_split (options : Options α) (track : Track α) (count : Nat) :
    [normalizationEffect options track] ≠ [.split count] := by
  simp only [normalizationEffect]
  split <;> simp

variable [Scalar α] {index : Nat}

theorem cutStages_cons_cons (index : Nat) (track : Track α) (first second : Interval α)
    (others : List (Interval α)) :
    cutStages index track (first :: second :: others) =
      splitJoin index .cut ((first :: second :: others).map intervalEffects) (Pad.input index)
        (cutPad index) := rfl

theorem evaluate?_cutStages {track : Track α} (hunused : Unused index carried)
    (hindex : track.kept ≠ [] → index < 2 ^ 64) :
    Graph.evaluate? reading (cutStages index track track.kept) carried =
      some (carried ++ [(cutPad index, track.cutSignal index)]) := by
  have htake : track.kept ≠ [] →
      carried.take? reading (Pad.input index) = some (.source index, carried) := fun hkept =>
    Carried.take?_input (Pad.inputIndex?_input (hindex hkept))
  rw [Track.cutSignal]
  cases hkept : track.kept with
  | nil => rfl
  | cons first others =>
      have htake := htake (by simp [hkept])
      cases others with
      | nil =>
          show Graph.evaluate? reading [Stage.between _ _ _] carried = _
          rw [Graph.evaluate?_cons, evaluate?_between (cutPad index) htake (singleEffects_ne_split track first)]
          rfl
      | cons second others =>
          have heffects : ∀ effects ∈ (first :: second :: others).map intervalEffects,
              ∀ count, effects ≠ [.split count] := by
            intro effects heffects
            obtain ⟨interval, -, rfl⟩ := List.mem_map.mp heffects
            simp [intervalEffects]
          have hsplit := evaluate?_splitJoin .cut (cutPad index) htake hunused heffects
          rw [List.map_map] at hsplit
          rw [cutStages_cons_cons, hsplit]
          rfl

def afterTempo (index : Nat) (track : Track α) : Pad := (tempoStages index track track.kept (cutPad index)).2

theorem inside_afterTempo (index : Nat) (track : Track α) : Inside index (afterTempo index track) := by
  rw [afterTempo, tempoStages]
  split
  · exact ⟨.cut, rfl⟩
  · exact ⟨.tempo, rfl⟩
  · exact ⟨.tempo, rfl⟩

theorem evaluate?_tempoStages {track : Track α} (hunused : Unused index carried) :
    Graph.evaluate? reading (tempoStages index track track.kept (cutPad index)).1
        (carried ++ [(cutPad index, signal)]) =
      some (carried ++ [(afterTempo index track, track.tempoSignal signal)]) := by
  have htake : Carried.take? reading (carried ++ [(cutPad index, signal)]) (cutPad index) =
      some (signal, carried) := take?_last ⟨.cut, rfl⟩ hunused
  rw [afterTempo, Track.tempoSignal, tempoStages]
  cases track.tempoChange? with
  | none => rfl
  | some rate =>
      cases track.tempoRegion with
      | none =>
          show Graph.evaluate? reading [Stage.between _ _ _] _ = _
          rw [Graph.evaluate?_cons, evaluate?_between (tempoPad index) htake (stretches_ne_split rate)]
          rfl
      | some region =>
          have heffects : ∀ effects ∈ (Tempo.rampPieces rate region.rampStart region.stop
              (cutLength track.kept)).map rampEffects, ∀ count, effects ≠ [.split count] := by
            intro effects heffects
            obtain ⟨piece, -, rfl⟩ := List.mem_map.mp heffects
            exact rampEffects_ne_split piece
          have hsplit := evaluate?_splitJoin .ramp (tempoPad index) htake hunused heffects
          rw [List.map_map] at hsplit
          exact hsplit

variable [Decibels α]

def afterVolume (index : Nat) (track : Track α) : Pad := (volumeStages index track (afterTempo index track)).2

theorem inside_afterVolume (index : Nat) (track : Track α) : Inside index (afterVolume index track) := by
  rw [afterVolume, volumeStages]
  split
  · exact inside_afterTempo index track
  · exact ⟨.volume, rfl⟩

theorem evaluate?_volumeStages {track : Track α} (hunused : Unused index carried) :
    Graph.evaluate? reading (volumeStages index track (afterTempo index track)).1
        (carried ++ [(afterTempo index track, signal)]) =
      some (carried ++ [(afterVolume index track, track.volumeSignal signal)]) := by
  have htake : Carried.take? reading (carried ++ [(afterTempo index track, signal)]) (afterTempo index track) =
      some (signal, carried) := take?_last (inside_afterTempo index track) hunused
  rw [afterVolume, Track.volumeSignal, volumeStages]
  cases hvolume : volumeEffect? track with
  | none => rfl
  | some effect =>
      show Graph.evaluate? reading [Stage.between _ _ _] _ = _
      rw [Graph.evaluate?_cons, evaluate?_between (volumePad index) htake (volumeEffect?_ne_split hvolume)]
      rfl

/-- The stages of a track that end at a given output. -/
def stagesTo (options : Options α) (index : Nat) (track : Track α) (output : Pad) : Graph (Effect α) :=
  cutStages index track track.kept ++ ((tempoStages index track track.kept (cutPad index)).1 ++
    ((volumeStages index track (afterTempo index track)).1 ++
      [Stage.between (afterVolume index track) [normalizationEffect options track] output]))

theorem stages_ofTrack (options : Options α) (index : Nat) (track : Track α) :
    (ofTrack options index track).stages = stagesTo options index track (outputPad index) := by
  simp only [stagesTo, ← List.append_assoc]
  rfl

/-- Whatever other links are open, a chain leaves one more, with what is heard of the track. -/
theorem evaluate?_stagesTo {track : Track α} (options : Options α) (output : Pad)
    (hunused : Unused index carried) (hindex : track.kept ≠ [] → index < 2 ^ 64) :
    Graph.evaluate? reading (stagesTo options index track output) carried =
      some (carried ++ [(output, track.signal options index)]) := by
  rw [stagesTo, Graph.evaluate?_append, evaluate?_cutStages hunused hindex, Option.bind_some,
    Graph.evaluate?_append, evaluate?_tempoStages hunused, Option.bind_some,
    Graph.evaluate?_append, evaluate?_volumeStages hunused, Option.bind_some, Graph.evaluate?_cons,
    evaluate?_between output (take?_last (inside_afterVolume index track) hunused)
      (normalizationEffect_ne_split options track)]
  rfl

end Chain

end Segue
