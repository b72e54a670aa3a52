import Segue.Proofs.Cue.Markers
import Segue.Proofs.Cue.Reading
import Segue.Proofs.Cue.Timeline

/-!
What the cue sheet of a project lists. Main statement: read back from its text, it has a block for
each track, with the start of the track and the markers inside its window, numbered from one on and
in order of time.
-/

namespace Segue

/-- The texts of a project that its cue sheet shows. -/
def Project.texts {α : Type} (project : Project α) : List String :=
  let metadata := project.metadata
  project.name :: (project.artist.toList ++ metadata.title.toList ++ metadata.artist.toList ++ metadata.genre.toList
    ++ metadata.comment.toList ++ metadata.year.toList
    ++ project.tracks.flatMap fun track => track.title :: track.artist.toList)

theorem Text.trimChars_subset (text : List Char) : Text.trimChars text ⊆ text := by
  intro c hc
  have hreversed := (List.dropWhile_suffix _).subset (List.mem_reverse.mp hc)
  exact (List.dropWhile_suffix _).subset (List.mem_reverse.mp hreversed)

theorem IsLine.trim {text : String} (h : IsLine text) : IsLine (Text.trim text) := by
  rw [IsLine, Text.trim, String.toList_ofList]
  exact fun hmem => h (Text.trimChars_subset _ hmem)

namespace CueSheet

variable {project : Project Float} {transitions : List (Transition Float)} {file : String} {format : AudioFormat}

/-- A cue sheet shows no other texts than those of its project and the name of the file. -/
theorem isLine_of_mem_texts (hfile : IsLine file) (htexts : ∀ text ∈ project.texts, IsLine text) {text : String}
    (h : text ∈ (ofProject project transitions file format).texts) : IsLine text := by
  have hproject : ∀ {text}, text ∈ project.texts → IsLine text := fun hmem => htexts _ hmem
  simp only [Project.texts, List.mem_cons, List.mem_append, Option.mem_toList] at hproject
  simp only [texts, ofProject, Project.effectiveMetadata, filled, List.mem_append, List.mem_cons, List.not_mem_nil,
    or_false, Option.mem_toList] at h
  rcases h with ((((hgenre | hyear) | hcomment) | hartist) | htitle | rfl) | htrack
  · exact hproject (by simp [(Option.filter_eq_some_iff.mp hgenre).1])
  · obtain ⟨year, hfilled, rfl⟩ := Option.map_eq_some_iff.mp hyear
    exact (hproject (by simp [(Option.filter_eq_some_iff.mp hfilled).1])).trim
  · exact hproject (by simp [(Option.filter_eq_some_iff.mp hcomment).1])
  · rcases Option.or_eq_some_iff.mp hartist with hown | ⟨-, hgiven⟩
    · exact hproject (by simp [hown])
    · exact hproject (by simp [hgiven])
  · cases hown : project.metadata.title with
    | none => exact hproject (.inl (by rw [htitle, hown]; rfl))
    | some title => exact hproject (by simp [htitle, hown])
  · exact hfile
  · obtain ⟨_, hmem, htext⟩ := List.mem_flatMap.mp htrack
    obtain ⟨entry, hentry, rfl⟩ := List.mem_map.mp hmem
    exact hproject (.inr (.inr (List.mem_flatMap.mpr ⟨entry.1, (List.of_mem_zip hentry).1, htext⟩)))

end CueSheet

/-- What a block of a cue sheet says about a track that starts at some time: the indexes have the
numbers from one on without a gap, and the first shows the start. The others show the markers inside
the window in order of time, as many as there are numbers for. Each is less than a frame off, and
none is earlier than the one before it. -/
structure CueBlock.Lists (block : CueBlock) (track : Track Float) (start : Float) : Prop where
  fields : block.fields = (("    TITLE " ++ CueSheet.quoted track.title) ::
    CueSheet.optionalLine "    PERFORMER" track.artist).map String.toList
  numbers : block.indexes.map Prod.fst = List.range' 1 block.indexes.length
  few : block.indexes.length ≤ 99
  frames : ∃ times listed : List Float,
    times.Perm (track.insideMarkers.map CuePoint.time) ∧ times.Pairwise (· ≤ ·) ∧
    listed = start :: (times.take 98).map (fun time => start + (time - track.window.1)) ∧
    block.indexes.map Prod.snd = listed.map CueTime.frameCount ∧
    List.Forall₂ CueTime.Shows (block.indexes.map Prod.snd) listed
  ordered : (block.indexes.map Prod.snd).Pairwise (· ≤ ·)

namespace CueTrack

theorem map_fst_block (track : CueTrack Float) (place : Nat) :
    (track.block place).indexes.map Prod.fst = List.range' 1 (track.block place).indexes.length := by
  refine List.ext_getElem (by simp) fun index _ _ => ?_
  simp [block, Nat.add_comm]

theorem map_snd_block (track : CueTrack Float) (place : Nat) :
    (track.block place).indexes.map Prod.snd = track.indexes.map CueTime.frameCount := by
  refine List.ext_getElem (by simp [block]) fun index _ _ => ?_
  simp [block]

end CueTrack

/-- The cue sheet entry of a track that starts at some time. -/
def Track.cueTrack (track : Track Float) (start : Float) : CueTrack Float where
  title := track.title
  performer := track.artist
  indexes := start :: (track.markerTimes start).take (maxIndex - 1)

theorem Track.lists_cueTrack {track : Track Float} (h : ∀ number ∈ track.numbers, Scalar.isFinite number = true)
    {start : Float}
    (htimes : ∀ time ∈ (track.cueTrack start).indexes, CueTime.InRange time) (place : Nat) :
    ((track.cueTrack start).block place).Lists track start := by
  obtain ⟨times, hperm, hsorted, hmarkers⟩ := track.exists_markerTimes h start
  have hindexes : (track.cueTrack start).indexes =
      start :: (times.take 98).map fun time => start + (time - track.window.1) := by
    rw [cueTrack, hmarkers, ← List.map_take]
    rfl
  rw [hindexes] at htimes
  have hordered : (start :: (times.take 98).map fun time => start + (time - track.window.1)).Pairwise (· ≤ ·) := by
    refine pairwise_shifted h (hsorted.sublist (List.take_sublist _ _)) (fun time htime => ?_) ?_ fun time htime => ?_
    · exact hperm.subset (List.mem_of_mem_take htime)
    · exact (htimes start List.mem_cons_self).1
    · exact (htimes _ (List.mem_cons_of_mem _ (List.mem_map_of_mem htime))).1
  have hframes := (track.cueTrack start).map_snd_block place
  rw [hindexes] at hframes
  exact {
    fields := rfl
    numbers := (track.cueTrack start).map_fst_block place
    few := by
      rw [CueTrack.block, List.length_mapIdx, hindexes, List.length_cons, List.length_map, List.length_take]
      omega
    frames := by
      refine ⟨times, _, hperm, hsorted, rfl, hframes, ?_⟩
      rw [hframes, List.forall₂_map_left_iff, List.forall₂_same]
      exact fun time htime => CueTime.shows_frameCount (htimes time htime)
    ordered := by
      rw [hframes]
      refine List.pairwise_map.mpr (hordered.imp_of_mem fun {first second} hfirst hsecond hle => ?_)
      exact CueTime.frameCount_mono (htimes first hfirst) (htimes second hsecond) hle }

namespace CueSheet

variable {project : Project Float} {transitions : List (Transition Float)} {file : String} {format : AudioFormat}

/-- No track has more indexes than there are numbers for them. -/
theorem length_indexes_ofProject {track : CueTrack Float}
    (h : track ∈ (ofProject project transitions file format).tracks) : track.indexes.length ≤ maxIndex := by
  obtain ⟨entry, -, rfl⟩ := List.mem_map.mp h
  rw [List.length_cons, List.length_take]
  exact Nat.succ_le_succ (Nat.min_le_left _ _)

/-- The cue sheet of a project is read back from its text: behind its header it has a block for each
track, in order and numbered from one on, that lists the track. -/
theorem read?_text_ofProject (hnumbers : project.IsFinite) (hfile : IsLine file)
    (htexts : ∀ text ∈ project.texts, IsLine text)
    (htimes : ∀ track ∈ (ofProject project transitions file format).tracks, ∀ time ∈ track.indexes,
      CueTime.InRange time) :
    ∃ blocks, read? (ofProject project transitions file format).text =
        some ((ofProject project transitions file format).headerLines.map String.toList, blocks) ∧
      blocks.map CueBlock.number = List.range' 1 project.tracks.length ∧
      List.Forall₂ (fun block entry => block.Lists entry.1 entry.2) blocks
        (project.tracks.zip (project.startTimes transitions)) := by
  have htracks : (ofProject project transitions file format).tracks =
      (project.tracks.zip (project.startTimes transitions)).map fun entry => entry.1.cueTrack entry.2 := rfl
  have hcount : (project.tracks.zip (project.startTimes transitions)).length = project.tracks.length := by
    rw [List.length_zip, Project.startTimes, Segue.startTimes, length_startsFrom, List.length_map, Nat.min_self]
  refine ⟨_, read?_text (fun _ => isLine_of_mem_texts hfile htexts) fun _ => length_indexes_ofProject, ?_, ?_⟩
  · refine List.ext_getElem (by simp [htracks, hcount]) fun index _ _ => ?_
    simp [CueTrack.block, Nat.add_comm]
  · refine List.forall₂_iff_get.mpr ⟨by simp [htracks], fun index hindex hentry => ?_⟩
    have hmem := List.getElem_mem hentry
    have htrack : (project.tracks.zip (project.startTimes transitions))[index].1.cueTrack
        (project.tracks.zip (project.startTimes transitions))[index].2 ∈
          (ofProject project transitions file format).tracks := by
      rw [htracks]
      exact List.mem_map_of_mem hmem
    have hlists := Track.lists_cueTrack (hnumbers _ (List.of_mem_zip hmem).1) (htimes _ htrack) index
    simpa [htracks] using hlists

/-- Two tracks, the first with markers before its window and, out of order, inside it. -/
def marked : Project Float where
  version := "1.0"
  name := "Night"
  tracks := [
    { position := 0, title := "First", source := ⟨"first.wav"⟩, duration := 120.0, trimStart := some 10.0
      cuePoints := [⟨90.0, none, .marker⟩, ⟨10.0, none, .trimStart⟩, ⟨5.0, none, .marker⟩, ⟨30.0, none, .marker⟩] },
    { position := 1, title := "Second", artist := some "Guest", source := ⟨"second.wav"⟩, duration := 180.0 }]

theorem read?_text_ofProject_marked :
    marked.IsFinite ∧ IsLine "night.flac" ∧ (∀ text ∈ marked.texts, IsLine text) ∧
      (∀ track ∈ (ofProject marked [⟨5.0, .linear⟩] "night.flac" .flac).tracks, ∀ time ∈ track.indexes,
        CueTime.InRange time) ∧
      ∃ blocks, read? (ofProject marked [⟨5.0, .linear⟩] "night.flac" .flac).text =
          some ((ofProject marked [⟨5.0, .linear⟩] "night.flac" .flac).headerLines.map String.toList, blocks) ∧
        blocks.map CueBlock.number = List.range' 1 marked.tracks.length ∧
        List.Forall₂ (fun block entry => block.Lists entry.1 entry.2) blocks
          (marked.tracks.zip (marked.startTimes [⟨5.0, .linear⟩])) := by
  have hnumbers : marked.IsFinite := by decide +kernel
  have hfile : IsLine "night.flac" := by decide
  have htexts : ∀ text ∈ marked.texts, IsLine text := by decide
  have hentries : ∀ entry ∈ marked.tracks.zip (marked.startTimes [⟨5.0, .linear⟩]), CueTime.InRange entry.2 ∧
      ∀ cue ∈ entry.1.insideMarkers, CueTime.InRange (entry.2 + (cue.time - entry.1.window.1)) := by decide +kernel
  have htimes : ∀ track ∈ (ofProject marked [⟨5.0, .linear⟩] "night.flac" .flac).tracks, ∀ time ∈ track.indexes,
      CueTime.InRange time := by
    refine List.forall_mem_map.mpr fun entry hentry => List.forall_mem_cons.mpr ⟨(hentries entry hentry).1, ?_⟩
    intro time htime
    exact Track.forall_mem_markerTimes.mpr (hentries entry hentry).2 time (List.mem_of_mem_take htime)
  exact ⟨hnumbers, hfile, htexts, htimes, read?_text_ofProject hnumbers hfile htexts htimes⟩

end CueSheet

end Segue
