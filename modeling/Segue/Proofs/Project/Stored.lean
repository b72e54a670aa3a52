import Segue.Project.Store
import Segue.Proofs.Settings.Stored
import Segue.Proofs.Sorting
import Segue.Proofs.Track.Stored

/-!
Project files as they are written. Main statement: a project that is saved is loaded with the same
tracks, in order of position, and saving it again changes nothing.
-/

namespace Segue

open Json

namespace Metadata

theorem kept_encode (metadata : Metadata) : metadata.encode.kept = metadata.encode := by
  refine kept_object ?_
  simp [kept_ofOption_string]

theorem decode_encode (metadata : Metadata) : Metadata.decode metadata.encode = some metadata := by
  have hfields : fields? ["title", "artist", "album", "genre", "comment", "year"] metadata.encode = some _ :=
    fields?_object (by decide) rfl
  rw [decode, hfields, Option.bind_eq_bind, Option.bind_some]
  refine Option.bind_eq_some_iff.mpr ⟨metadata.title, Fields.optional_eq rfl recovers_string, ?_⟩
  refine Option.bind_eq_some_iff.mpr ⟨metadata.artist, Fields.optional_eq rfl recovers_string, ?_⟩
  refine Option.bind_eq_some_iff.mpr ⟨metadata.album, Fields.optional_eq rfl recovers_string, ?_⟩
  refine Option.bind_eq_some_iff.mpr ⟨metadata.genre, Fields.optional_eq rfl recovers_string, ?_⟩
  refine Option.bind_eq_some_iff.mpr ⟨metadata.comment, Fields.optional_eq rfl recovers_string, ?_⟩
  refine Option.bind_eq_some_iff.mpr ⟨metadata.year, Fields.optional_eq rfl recovers_string, ?_⟩
  rfl

end Metadata

namespace Project

variable {project : Project Float}

/-- A project that is read back as it is written. -/
structure IsStorable (project : Project Float) : Prop where
  position : ∀ track ∈ project.tracks, track.position < 2 ^ 32
  numbers : ∀ track ∈ project.tracks, ∀ x ∈ track.numbers, ReadsBack x

theorem kept_encode (h : project.IsStorable) : project.encode.kept = project.encode := by
  have htracks : (Json.array (project.tracks.map Track.encode)).kept = .array (project.tracks.map Track.encode) :=
    kept_list fun track htrack => Track.kept_encode (h.position track htrack) (h.numbers track htrack)
  refine kept_object ?_
  simp only [List.forall_mem_cons, List.not_mem_nil, IsEmpty.forall_iff, implies_true, and_true]
  exact ⟨rfl, rfl, kept_ofOption_string _, htracks, project.metadata.kept_encode⟩

theorem decode_encode (h : ∀ track ∈ project.tracks, track.position < 2 ^ 32) :
    Project.decode project.encode = some project := by
  have hfields : fields? ["version", "name", "artist", "tracks", "metadata"] project.encode = some _ :=
    fields?_object (by decide) rfl
  have htracks : asList Track.decode (.array (project.tracks.map Track.encode)) = some project.tracks :=
    asList_list fun track htrack => Track.decode_encode (h track htrack)
  rw [decode, hfields, Option.bind_eq_bind, Option.bind_some]
  refine Option.bind_eq_some_iff.mpr ⟨project.version, Fields.required_eq rfl rfl, ?_⟩
  refine Option.bind_eq_some_iff.mpr ⟨project.name, Fields.required_eq rfl rfl, ?_⟩
  refine Option.bind_eq_some_iff.mpr ⟨project.artist, Fields.optional_eq rfl recovers_string, ?_⟩
  refine Option.bind_eq_some_iff.mpr ⟨project.tracks, Fields.required_eq rfl htracks, ?_⟩
  exact Option.bind_eq_some_iff.mpr
    ⟨project.metadata, Fields.withDefault_eq rfl project.metadata.decode_encode, rfl⟩

/-- **The text of a project** is read back. -/
theorem parse?_fileText (h : project.IsStorable) : parse? project.fileText = some project := by
  rw [parse?, fileText, parse?_pretty, kept_encode h, Option.bind_some, decode_encode h.position]

section Order

variable {α : Type} (project : Project α)

theorem perm_sorted : project.sorted.tracks.Perm project.tracks := List.mergeSort_perm _ _

theorem pairwise_sorted : project.sorted.tracks.Pairwise fun a b => a.position ≤ b.position :=
  pairwise_mergeSort_key Track.position project.tracks

/-- Tracks with the same position keep their order. -/
theorem filter_sorted (position : Nat) :
    (project.sorted.tracks.filter fun track => track.position = position) =
      project.tracks.filter fun track => track.position = position :=
  filter_mergeSort_key Track.position project.tracks position

theorem sorted_sorted : project.sorted.sorted = project.sorted := by
  have hsorted : project.sorted.tracks.mergeSort (fun a b => decide (a.position ≤ b.position)) =
      project.sorted.tracks := List.mergeSort_of_pairwise (project.pairwise_sorted.imp decide_eq_true)
  rw [sorted, hsorted]

end Order

theorem IsStorable.sorted (h : project.IsStorable) : project.sorted.IsStorable where
  position track htrack := h.position track (project.perm_sorted.mem_iff.mp htrack)
  numbers track htrack := h.numbers track (project.perm_sorted.mem_iff.mp htrack)

end Project

namespace FileTree

variable {files files' : FileTree} {root file : Path} {project : Project Float} {mix : Mix Float}

/-- What is loaded where a project has been written. -/
theorem loadMix_of_read (hread : files.read file = .ok project.fileText) (h : project.IsStorable) :
    files.loadMix file = .ok (Mix.ofFile file project) := by
  rw [loadMix, hread, Mix.ofRead, Project.parse?_fileText h]

theorem read_of_saveMix (hsave : files.saveMix mix = (files', .ok ())) :
    files'.read mix.file = .ok mix.project.fileText := by
  rcases writeBelow_cases hsave with ⟨-, hread⟩ | ⟨⟨error, herror⟩, -⟩
  · exact hread
  · cases herror

/-- **Saved projects.** Take a project with finite numbers that are read back as they are printed,
and with positions that fit in 32 bits. Where it is saved it is loaded, with its tracks in order of
position and in their own order where positions are equal, and with all else as it was. What has
been loaded can be saved again, and then the text of the file is the same as before. -/
theorem loadMix_of_saveMix (hfinite : project.IsFinite)
    (hreads : ∀ track ∈ project.tracks, ∀ x ∈ track.numbers, x.isFinite = true → ReadsBack x)
    (hpositions : ∀ track ∈ project.tracks, track.position < 2 ^ 32)
    (hsave : files.saveMix (Mix.ofProject root project) = (files', .ok ())) :
    ∃ loaded, files'.loadMix (root.join Mix.fileName) = .ok loaded ∧
      loaded.file = root.join Mix.fileName ∧ loaded.project = (Mix.ofProject root project).project ∧
      loaded.project = { project with tracks := loaded.project.tracks } ∧
      loaded.project.tracks.Perm project.tracks ∧
      loaded.project.tracks.Pairwise (fun a b => a.position ≤ b.position) ∧
      (∀ position, (loaded.project.tracks.filter fun track => track.position = position) =
        project.tracks.filter fun track => track.position = position) ∧
      files'.read loaded.file = .ok loaded.project.fileText ∧
      ∃ files'', files'.saveMix loaded = (files'', .ok ()) ∧ files''.read loaded.file = files'.read loaded.file := by
  have hstorable : project.IsStorable :=
    ⟨hpositions, fun track htrack x hx => hreads track htrack x hx (hfinite track htrack x hx)⟩
  have hread := read_of_saveMix hsave
  have hsaved : (Mix.ofProject root project).file = root.join Mix.fileName ∧
      (Mix.ofProject root project).project = project.sorted := ⟨rfl, rfl⟩
  rw [hsaved.1, hsaved.2] at hread
  have hload := loadMix_of_read hread hstorable.sorted
  generalize hloaded : Mix.ofFile (root.join Mix.fileName) project.sorted = loaded at hload
  have hfile : loaded.file = root.join Mix.fileName := by rw [← hloaded, Mix.ofFile]
  have hproject : loaded.project = project.sorted := by
    rw [← hloaded, Mix.ofFile]
    exact project.sorted_sorted
  obtain ⟨files'', hagain⟩ : ∃ files'', files'.saveMix loaded = (files'', .ok ()) := by
    rw [saveMix, hfile]
    exact writeBelow_again hsave _
  have hread' := read_of_saveMix hagain
  rw [hproject] at hread'
  refine ⟨loaded, hload, hfile, hproject, ?_⟩
  rw [hproject]
  refine ⟨rfl, project.perm_sorted, project.pairwise_sorted, project.filter_sorted, ?_, files'', hagain, ?_⟩
  · rw [hfile, hread]
  · rw [hread', hfile, hread]

/-- A project whose tracks are out of order and share a position. -/
def medley : Project Float where
  version := "1.0"
  name := "Medley \"\x01\""
  artist := some "Ünïcode"
  tracks := [
    { position := 1, title := "Second", source := ⟨"second.wav"⟩, duration := 90.25, curve := some .unknown },
    { position := 0, title := "First", source := ⟨"first.wav"⟩, duration := 0.0, gain := some (-1.5),
      removed := [{ start := 1.0, stop := 1.5, enabled := false }] },
    { position := 1, title := "Third", source := ⟨"third.wav"⟩, duration := 1000000.0,
      cuePoints := [{ time := 0.5, label := some "\n", kind := .trimEnd }] }]
  metadata := { genre := some "" }

theorem loadMix_of_saveMix_tied :
    ∃ files' loaded files'', ({} : FileTree).saveMix (Mix.ofProject ⟨"set"⟩ medley) = (files', .ok ()) ∧
      files'.loadMix (Path.join ⟨"set"⟩ Mix.fileName) = .ok loaded ∧
      loaded.project.tracks.map Track.title = ["First", "Second", "Third"] ∧
      files'.saveMix loaded = (files'', .ok ()) ∧ files''.read loaded.file = files'.read loaded.file := by
  have hfinite : medley.IsFinite := by decide +kernel
  have hreads : ∀ track ∈ medley.tracks, ∀ x ∈ track.numbers, x.isFinite = true → ReadsBack x := by decide +kernel
  have hpositions : ∀ track ∈ medley.tracks, track.position < 2 ^ 32 := by decide
  have hresult : (({} : FileTree).saveMix (Mix.ofProject ⟨"set"⟩ medley)).2 = .ok () := by decide +kernel
  have htitles : medley.sorted.tracks.map Track.title = ["First", "Second", "Third"] := by
    simp [Project.sorted, medley, List.mergeSort, List.MergeSort.Internal.splitInTwo]
  rcases hsave : ({} : FileTree).saveMix (Mix.ofProject ⟨"set"⟩ medley) with ⟨files', result⟩
  rw [hsave] at hresult
  obtain rfl : result = .ok () := hresult
  obtain ⟨loaded, hload, -, hproject, -, -, -, -, -, files'', hagain, hsame⟩ :=
    loadMix_of_saveMix hfinite hreads hpositions hsave
  exact ⟨files', loaded, files'', rfl, hload, by rw [hproject]; exact htitles, hagain, hsame⟩

end FileTree

end Segue
