import Segue.Proofs.Cue.Listing
import Segue.Proofs.Cue.Quoting

/-!
The lines of a cue sheet. Main statement: a sheet is read back line by line, as the entries that it
lists and no others, exactly when none of its texts has a line break and none of those in quotes
ends in a backslash.
-/

namespace Segue

def endsLine (c : Char) : Bool := c == '\n' || c == '\r'

/-- A text that a reader of lines sees as one. -/
def IsUnbroken (text : String) : Prop := ∀ c ∈ text.toList, endsLine c = false

instance (text : String) : Decidable (IsUnbroken text) :=
  decidable_of_iff (text.toList.all fun c => endsLine c == false) (by simp [IsUnbroken])

theorem isUnbroken_append {first second : String} :
    IsUnbroken (first ++ second) ↔ IsUnbroken first ∧ IsUnbroken second := by
  rw [IsUnbroken, String.toList_append, List.forall_mem_append]
  rfl

theorem isUnbroken_twoDigits (n : Nat) : IsUnbroken (twoDigits n) := by
  intro c hc
  have hdigit := Numeral.isDigit_of_mem_twoDigits hc
  simp only [endsLine, Bool.or_eq_false_iff, beq_eq_false_iff_ne]
  constructor
  · rintro rfl
    cases hdigit
  · rintro rfl
    cases hdigit

theorem isUnbroken_ofFrames (count : Nat) : IsUnbroken (CueTime.ofFrames count) := by
  have hcolon : IsUnbroken ":" := by decide
  simp only [CueTime.ofFrames, isUnbroken_append, isUnbroken_twoDigits, hcolon, and_self]

theorem isUnbroken_quoted (text : String) : IsUnbroken (CueSheet.quoted text) ↔ IsUnbroken text := by
  have hquote : endsLine '"' = false := by decide
  have hbackslash : endsLine '\\' = false := by decide
  have hescape : (∀ c ∈ CueSheet.escape text.toList, endsLine c = false) ↔ IsUnbroken text := by
    simp only [CueSheet.escape, List.forall_mem_flatMap, IsUnbroken]
    refine forall₂_congr fun c _ => ?_
    split
    · simp [*]
    · simp
  rw [IsUnbroken, CueSheet.toList_quoted]
  simp only [List.forall_mem_cons, List.forall_mem_append, hquote, hescape, List.not_mem_nil, false_imp_iff,
    implies_true, and_true, true_and]

/-- The lines of a text; each has a line end behind it. -/
def brokenLines? (text : List Char) : Option (List (List Char)) :=
  let pieces := text.splitOnP endsLine
  if pieces.getLast? = some [] then some pieces.dropLast else none

/-- What is written as lines falls into the pieces of each. -/
theorem brokenLines?_join (lines : List String) :
    brokenLines? (String.join (lines.map fun line => line ++ "\n")).toList =
      some (lines.flatMap fun line => line.toList.splitOnP endsLine) := by
  have hpieces : (String.join (lines.map fun line => line ++ "\n")).toList.splitOnP endsLine =
      (lines.flatMap fun line => line.toList.splitOnP endsLine) ++ [[]] := by
    rw [String.toList_join, List.flatMap_map]
    induction lines with
    | nil => rfl
    | cons line lines ih =>
        have hline : (line ++ "\n").toList = line.toList ++ ['\n'] := String.toList_append
        rw [List.flatMap_cons, hline, List.append_assoc, List.singleton_append,
          List.splitOnP_append_cons _ _ (by decide), ih, List.flatMap_cons, List.append_assoc]
  simp only [brokenLines?, hpieces, List.getLast?_concat, List.dropLast_concat, if_true]

theorem length_splitOnP (text : List Char) :
    (text.splitOnP endsLine).length = text.countP endsLine + 1 := by
  induction text with
  | nil => rfl
  | cons c text ih =>
      rw [List.splitOnP_cons_eq_if_modifyHead, List.countP_cons]
      split <;> simp_all

/-- A line is not broken when it is one piece. -/
theorem isUnbroken_iff_length (line : String) : IsUnbroken line ↔ (line.toList.splitOnP endsLine).length = 1 := by
  rw [length_splitOnP, Nat.add_eq_right, List.countP_eq_zero]
  simp only [IsUnbroken, Bool.not_eq_true]

/-- When there are no more pieces than lines, each line is one piece. -/
theorem length_eq_one_of_flatMap {α β : Type} {pieces : α → List β} {items : List α}
    (h : ∀ item ∈ items, 1 ≤ (pieces item).length) (hlength : (items.flatMap pieces).length ≤ items.length) :
    ∀ item ∈ items, (pieces item).length = 1 := by
  have hmany : ∀ items : List α, (∀ item ∈ items, 1 ≤ (pieces item).length) →
      items.length ≤ (items.flatMap pieces).length := by
    intro items hitems
    induction items with
    | nil => exact Nat.le_refl _
    | cons item items ih =>
        obtain ⟨hitem, hitems⟩ := List.forall_mem_cons.mp hitems
        have hrest := ih hitems
        rw [List.flatMap_cons, List.length_append, List.length_cons]
        omega
  induction items with
  | nil => exact nofun
  | cons item items ih =>
      obtain ⟨hitem, hitems⟩ := List.forall_mem_cons.mp h
      have hrest := hmany items hitems
      rw [List.flatMap_cons, List.length_append, List.length_cons] at hlength
      exact List.forall_mem_cons.mpr ⟨by omega, ih hitems (by omega)⟩

/-- The fields that are a line with a text in quotes. -/
inductive CueField where
  | genre | comment | performer | title | trackTitle | trackPerformer
  deriving DecidableEq, Repr

def CueField.label : CueField → String
  | .genre => "REM GENRE "
  | .comment => "REM COMMENT "
  | .performer => "PERFORMER "
  | .title => "TITLE "
  | .trackTitle => "    TITLE "
  | .trackPerformer => "    PERFORMER "

/-- What one line of a cue sheet says. -/
inductive CueEntry where
  | quoted (field : CueField) (text : String)
  | date (text : String)
  | file (name type : String)
  | track (number : Nat)
  | index (number frames : Nat)
  deriving DecidableEq, Repr

namespace CueEntry

def write : CueEntry → String
  | .quoted field text => field.label ++ CueSheet.quoted text
  | .date text => "REM DATE " ++ text
  | .file name type => "FILE " ++ CueSheet.quoted name ++ " " ++ type
  | .track number => "  TRACK " ++ twoDigits number ++ " AUDIO"
  | .index number frames => "    INDEX " ++ twoDigits number ++ " " ++ CueTime.ofFrames frames

def texts : CueEntry → List String
  | .quoted _ text => [text]
  | .date text => [text]
  | .file name type => [name, type]
  | _ => []

/-- The texts that an entry shows in quotes. -/
def quotes : CueEntry → List String
  | .quoted _ text => [text]
  | .file name _ => [name]
  | _ => []

/-- An entry whose index number, if it has one, has two digits. -/
def IsNumbered : CueEntry → Prop
  | .index number _ => number < 100
  | _ => True

/-! ### Reading an entry -/

/-- The field, when its text is closed at the end of the line. -/
def ofQuoted? (field : CueField) (rest : List Char) : Option CueEntry :=
  match CueSheet.unquote? rest with
  | some (text, []) => some (.quoted field (String.ofList text))
  | _ => none

/-- The file, when behind its closed name there is a blank and a type. -/
def ofFile? (rest : List Char) : Option CueEntry :=
  match CueSheet.unquote? rest with
  | some (name, ' ' :: type) => some (.file (String.ofList name) (String.ofList type))
  | _ => none

/-- What lines begin with, and how those lines are read. -/
def readers : List (String × (List Char → Option CueEntry)) :=
  [CueField.genre, .comment, .performer, .title, .trackTitle, .trackPerformer].map (fun field =>
      (field.label, fun line => ofQuoted? field (line.drop field.label.length)))
    ++ [("REM DATE ", fun line => some (.date (String.ofList (line.drop 9)))),
      ("FILE ", fun line => ofFile? (line.drop 5)),
      ("  TRACK ", fun line => (CueBlock.number? line).map .track),
      ("    INDEX ", fun line => (CueBlock.index? line).map (Function.uncurry .index))]

/-- What a line says, by what it begins with. -/
def read? (line : List Char) : Option CueEntry := do
  let (_, reader) ← readers.find? fun (label, _) => label.toList.isPrefixOf line
  reader line

theorem read?_quoted (field : CueField) (rest : List Char) :
    read? (field.label.toList ++ rest) = ofQuoted? field rest := by
  cases field <;> rfl

theorem read?_date (rest : List Char) : read? ("REM DATE ".toList ++ rest) = some (.date (String.ofList rest)) := rfl

theorem read?_file (rest : List Char) : read? ("FILE ".toList ++ rest) = ofFile? rest := rfl

theorem read?_track (rest : List Char) :
    read? (CueBlock.trackMark ++ rest) = (CueBlock.number? (CueBlock.trackMark ++ rest)).map .track := rfl

theorem read?_index (rest : List Char) :
    read? (CueBlock.indexMark ++ rest) =
      (CueBlock.index? (CueBlock.indexMark ++ rest)).map (Function.uncurry .index) := rfl

theorem toList_write_index (number frames : Nat) :
    (write (.index number frames)).toList =
      CueBlock.indexMark ++ ((twoDigits number).toList ++ ' ' :: (CueTime.ofFrames frames).toList) := by
  simp only [write, String.toList_append, List.append_assoc]
  rfl

/-- An entry is read back from its line when none of its texts in quotes ends in a backslash, and
only then. -/
theorem read?_write_eq_some_iff {entry : CueEntry} (h : entry.IsNumbered) :
    read? entry.write.toList = some entry ↔ ∀ text ∈ entry.quotes, text.toList.getLast? ≠ some '\\' := by
  cases entry with
  | quoted field text =>
      have hread := CueSheet.unquote?_quoted_eq_some_iff text []
      rw [write, String.toList_append, read?_quoted, ofQuoted?, quotes, List.forall_mem_singleton, ← hread,
        List.append_nil]
      split
      · rename_i heq
        simp [heq, String.ofList_eq]
      · rename_i hnone
        exact iff_of_false nofun fun heq => hnone _ heq
  | date text =>
      rw [write, String.toList_append, read?_date, String.ofList_toList]
      exact iff_of_true rfl (List.forall_mem_nil _)
  | file name type =>
      have hread := CueSheet.unquote?_quoted_eq_some_iff name (' ' :: type.toList)
      have hline : (write (.file name type)).toList =
          "FILE ".toList ++ ((CueSheet.quoted name).toList ++ ' ' :: type.toList) := by
        simp only [write, String.toList_append, List.append_assoc]
        rfl
      rw [hline, read?_file, ofFile?, quotes, List.forall_mem_singleton, ← hread]
      split
      · rename_i heq
        simp [heq, String.ofList_eq]
      · rename_i hnone
        exact iff_of_false nofun fun heq => hnone _ _ heq
  | track number =>
      have hline : (write (.track number)).toList =
          CueBlock.trackMark ++ ((twoDigits number).toList ++ " AUDIO".toList) := by
        simp only [write, String.toList_append, List.append_assoc]
        rfl
      have hnumber := CueBlock.number?_trackLine number
      rw [← write, hline] at hnumber
      rw [hline, read?_track, hnumber]
      exact iff_of_true rfl (List.forall_mem_nil _)
  | index number frames =>
      rw [toList_write_index, read?_index, CueBlock.index?_ofFrames h]
      exact iff_of_true rfl (List.forall_mem_nil _)

theorem isUnbroken_write_iff (entry : CueEntry) :
    IsUnbroken entry.write ↔ ∀ text ∈ entry.texts, IsUnbroken text := by
  have hlabel : ∀ field : CueField, IsUnbroken field.label := by
    rintro (_ | _ | _ | _ | _ | _) <;> decide
  have hdate : IsUnbroken "REM DATE " := by decide
  have hfile : IsUnbroken "FILE " := by decide
  have htrack : IsUnbroken "  TRACK " ∧ IsUnbroken " AUDIO" := by decide
  have hindex : IsUnbroken "    INDEX " ∧ IsUnbroken " " := by decide
  cases entry <;>
    simp only [write, texts, isUnbroken_append, isUnbroken_quoted, isUnbroken_twoDigits, isUnbroken_ofFrames, hlabel,
      hdate, hfile, htrack, hindex, List.forall_mem_cons, List.not_mem_nil, false_imp_iff, implies_true, and_true,
      true_and]

def writeAll (entries : List CueEntry) : String := String.join (entries.map fun entry => entry.write ++ "\n")

def readAll? (text : String) : Option (List CueEntry) := do (← brokenLines? text.toList).mapM read?

/-- Entries are read back line by line when no text of theirs has a line break and none in quotes
ends in a backslash, and only then. -/
theorem readAll?_writeAll_iff {entries : List CueEntry} (h : ∀ entry ∈ entries, entry.IsNumbered) :
    readAll? (writeAll entries) = some entries ↔
      (∀ entry ∈ entries, ∀ text ∈ entry.texts, IsUnbroken text) ∧
        ∀ entry ∈ entries, ∀ text ∈ entry.quotes, text.toList.getLast? ≠ some '\\' := by
  have hpieces : brokenLines? (writeAll entries).toList =
      some (entries.flatMap fun entry => entry.write.toList.splitOnP endsLine) := by
    have hjoin := brokenLines?_join (entries.map write)
    rwa [List.map_map, List.flatMap_map] at hjoin
  have hunbroken : (∀ entry ∈ entries, ∀ text ∈ entry.texts, IsUnbroken text) ↔
      ∀ entry ∈ entries, IsUnbroken entry.write := forall₂_congr fun entry _ => (isUnbroken_write_iff entry).symm
  have hlines : (∀ entry ∈ entries, IsUnbroken entry.write) →
      (entries.flatMap fun entry => entry.write.toList.splitOnP endsLine) =
        entries.map fun entry => entry.write.toList := by
    intro hwhole
    rw [List.map_eq_flatMap]
    exact List.flatMap_congr fun entry hentry => List.splitOnP_eq_singleton (hwhole entry hentry)
  have hread : ((entries.map fun entry => entry.write.toList).mapM read?) = some entries ↔
      ∀ entry ∈ entries, ∀ text ∈ entry.quotes, text.toList.getLast? ≠ some '\\' := by
    rw [mapM_map_eq_some_iff]
    exact forall₂_congr fun entry hentry => read?_write_eq_some_iff (h entry hentry)
  rw [readAll?, hpieces, Option.bind_eq_bind, Option.bind_some, hunbroken]
  constructor
  · intro hall
    -- there are as many pieces as entries, so each line is one piece
    have hwhole : ∀ entry ∈ entries, IsUnbroken entry.write := by
      have hone := length_eq_one_of_flatMap (fun entry _ => ?_) (length_of_mapM hall).ge
      · exact fun entry hentry => (isUnbroken_iff_length _).mpr (hone entry hentry)
      · rw [length_splitOnP]
        exact Nat.le_add_left _ _
    rw [hlines hwhole, hread] at hall
    exact ⟨hwhole, hall⟩
  · rintro ⟨hwhole, hquotes⟩
    rw [hlines hwhole, hread]
    exact hquotes

end CueEntry

theorem map_mapIdx {α β γ : Type} (f : Nat → α → β) (g : β → γ) (items : List α) :
    (items.mapIdx f).map g = items.mapIdx fun place item => g (f place item) := by
  rw [List.mapIdx_eq_zipIdx_map, List.mapIdx_eq_zipIdx_map, List.map_map]
  rfl

/-- What is shown of all items is what is shown of each, wherever it stands. -/
theorem flatMap_mapIdx {α β γ : Type} {f : Nat → α → List β} {g : β → List γ} {shown : α → List γ}
    (h : ∀ place item, (f place item).flatMap g = shown item) (items : List α) :
    (items.mapIdx f).flatten.flatMap g = items.flatMap shown := by
  rw [List.mapIdx_eq_zipIdx_map, ← List.flatMap_def, List.flatMap_assoc]
  simp only [h]
  rw [← List.flatMap_map, List.zipIdx_map_fst]

namespace CueSheet

def headerEntries (sheet : CueSheet Float) : List CueEntry :=
  sheet.genre.toList.map (.quoted .genre) ++ sheet.date.toList.map .date ++ sheet.comment.toList.map (.quoted .comment)
    ++ sheet.performer.toList.map (.quoted .performer)
    ++ [.quoted .title sheet.title, .file sheet.file (fileType sheet.format)]

/-- The entries of a track; the first one has the number one. -/
def trackEntries (place : Nat) (track : CueTrack Float) : List CueEntry :=
  [.track (place + 1), .quoted .trackTitle track.title] ++ track.performer.toList.map (.quoted .trackPerformer)
    ++ track.indexes.mapIdx fun place time => .index (place + 1) (CueTime.frameCount time)

/-- What a sheet lists: an entry for each line. -/
def entries (sheet : CueSheet Float) : List CueEntry :=
  sheet.headerEntries ++ (sheet.tracks.mapIdx trackEntries).flatten

variable {sheet : CueSheet Float}

theorem map_write_quoted (field : CueField) (label : String) (h : field.label = label ++ " ") (text : Option String) :
    (text.toList.map (CueEntry.quoted field)).map CueEntry.write = optionalLine label text := by
  cases text with
  | none => rfl
  | some text => simp [optionalLine, CueEntry.write, h]

theorem map_write_headerEntries (sheet : CueSheet Float) :
    sheet.headerEntries.map CueEntry.write = sheet.headerLines := by
  simp only [headerEntries, headerLines, List.map_append, map_write_quoted .genre "REM GENRE" (by decide),
    map_write_quoted .comment "REM COMMENT" (by decide), map_write_quoted .performer "PERFORMER" (by decide)]
  cases sheet.date <;> rfl

theorem map_write_trackEntries (place : Nat) (track : CueTrack Float) :
    (trackEntries place track).map CueEntry.write = trackLines place track := by
  have hindexes : (track.indexes.mapIdx fun place time =>
      CueEntry.index (place + 1) (CueTime.frameCount time)).map CueEntry.write = track.indexes.mapIdx indexLine := by
    rw [map_mapIdx]
    refine congrArg (List.mapIdx · track.indexes) (funext fun place => funext fun time => ?_)
    rw [CueEntry.write, indexLine, CueTime.text_eq_ofFrames]
  simp only [trackEntries, trackLines, List.map_append, map_write_quoted .trackPerformer "    PERFORMER" (by decide),
    hindexes]
  rfl

/-- The text of a sheet is that of its entries, each on a line. -/
theorem text_eq_writeAll (sheet : CueSheet Float) : sheet.text = CueEntry.writeAll sheet.entries := by
  have hlines : sheet.entries.map CueEntry.write = sheet.lines := by
    rw [entries, lines, List.map_append, map_write_headerEntries, List.map_flatten, map_mapIdx]
    refine congrArg (fun blocks : List (List String) => sheet.headerLines ++ blocks.flatten) ?_
    refine congrArg (List.mapIdx · sheet.tracks) (funext fun place => funext fun track => ?_)
    exact map_write_trackEntries place track
  rw [text, CueEntry.writeAll, ← hlines, List.map_map]
  rfl

section Shown

variable {shown : CueEntry → List String} (hquoted : ∀ field text, shown (.quoted field text) = [text])
  (htrack : ∀ number, shown (.track number) = []) (hindex : ∀ number frames, shown (.index number frames) = [])

include hquoted

theorem flatMap_quoted (field : CueField) (text : Option String) :
    (text.toList.map (.quoted field)).flatMap shown = text.toList := by
  cases text with
  | none => rfl
  | some text => simp [hquoted]

include htrack hindex

theorem flatMap_trackEntries (place : Nat) (track : CueTrack Float) :
    (trackEntries place track).flatMap shown = track.title :: track.performer.toList := by
  have hindexes : (track.indexes.mapIdx fun place time =>
      CueEntry.index (place + 1) (CueTime.frameCount time)).flatMap shown = [] := by
    refine List.flatMap_eq_nil_iff.mpr fun entry hentry => ?_
    obtain ⟨place, _, rfl⟩ := List.mem_mapIdx.mp hentry
    exact hindex _ _
  rw [trackEntries, List.flatMap_append, List.flatMap_append, hindexes, flatMap_quoted hquoted, List.append_nil]
  simp [htrack, hquoted]

/-- What is shown of the entries of a sheet, where it is the text of each field. -/
theorem flatMap_entries (sheet : CueSheet Float) :
    sheet.entries.flatMap shown =
      sheet.genre.toList ++ sheet.date.toList.flatMap (fun date => shown (.date date)) ++ sheet.comment.toList
        ++ sheet.performer.toList ++ sheet.title :: shown (.file sheet.file (fileType sheet.format))
        ++ sheet.tracks.flatMap fun track => track.title :: track.performer.toList := by
  have hheader : sheet.headerEntries.flatMap shown =
      sheet.genre.toList ++ sheet.date.toList.flatMap (fun date => shown (.date date)) ++ sheet.comment.toList
        ++ sheet.performer.toList ++ sheet.title :: shown (.file sheet.file (fileType sheet.format)) := by
    simp only [headerEntries, List.flatMap_append, flatMap_quoted hquoted, List.flatMap_map, List.flatMap_cons,
      List.flatMap_nil, hquoted, List.append_nil, List.singleton_append]
  rw [entries, List.flatMap_append, hheader, flatMap_mapIdx (flatMap_trackEntries hquoted htrack hindex)]

end Shown

def quotes (sheet : CueSheet Float) : List String :=
  sheet.genre.toList ++ sheet.comment.toList ++ sheet.performer.toList ++ [sheet.title, sheet.file]
    ++ sheet.tracks.flatMap fun track => track.title :: track.performer.toList

theorem forall_mem_quotes {p : String → Prop} :
    (∀ entry ∈ sheet.entries, ∀ text ∈ entry.quotes, p text) ↔ ∀ text ∈ sheet.quotes, p text := by
  have hshown := @flatMap_entries CueEntry.quotes (fun _ _ => rfl) (fun _ => rfl) (fun _ _ => rfl) sheet
  have hdate : (sheet.date.toList.flatMap fun date => CueEntry.quotes (.date date)) = [] :=
    List.flatMap_eq_nil_iff.mpr fun _ _ => rfl
  have hquotes : sheet.entries.flatMap CueEntry.quotes = sheet.quotes := by
    rw [hshown, hdate, List.append_nil]
    rfl
  rw [← List.forall_mem_flatMap, hquotes]

theorem forall_mem_texts {p : String → Prop} (h : p (fileType sheet.format)) :
    (∀ entry ∈ sheet.entries, ∀ text ∈ entry.texts, p text) ↔ ∀ text ∈ sheet.texts, p text := by
  have hshown := @flatMap_entries CueEntry.texts (fun _ _ => rfl) (fun _ => rfl) (fun _ _ => rfl) sheet
  have hdate : (sheet.date.toList.flatMap fun date => CueEntry.texts (.date date)) = sheet.date.toList :=
    List.flatMap_singleton' _
  rw [← List.forall_mem_flatMap, hshown, hdate, texts]
  simp only [List.forall_mem_append, List.forall_mem_cons, CueEntry.texts, h, true_and]

theorem isNumbered_of_mem_entries (hfew : ∀ track ∈ sheet.tracks, track.indexes.length ≤ maxIndex) :
    ∀ entry ∈ sheet.entries, entry.IsNumbered := by
  have hheader : ∀ entry ∈ sheet.headerEntries, entry.IsNumbered := by
    simp only [headerEntries, List.forall_mem_append, List.forall_mem_map, List.forall_mem_cons, CueEntry.IsNumbered,
      List.not_mem_nil, false_imp_iff, implies_true, and_self]
  have htrack : ∀ place (track : CueTrack Float), track.indexes.length ≤ maxIndex →
      ∀ entry ∈ trackEntries place track, entry.IsNumbered := by
    intro place track hcount
    simp only [trackEntries, List.forall_mem_append, List.forall_mem_map, List.forall_mem_cons, CueEntry.IsNumbered,
      List.not_mem_nil, false_imp_iff, implies_true, and_self, true_and]
    intro entry hentry
    obtain ⟨number, hnumber, rfl⟩ := List.mem_mapIdx.mp hentry
    exact (Nat.succ_le_succ hnumber).trans (Nat.succ_le_succ hcount)
  refine List.forall_mem_append.mpr ⟨hheader, fun entry hentry => ?_⟩
  obtain ⟨block, hblock, hentry⟩ := List.mem_flatten.mp hentry
  obtain ⟨place, hplace, rfl⟩ := List.mem_mapIdx.mp hblock
  exact htrack place _ (hfew _ (List.getElem_mem hplace)) entry hentry

/-- The cue sheet of a project is read back line by line, as the entries that it lists and no
others, exactly when none of the texts that it shows has a line break and none of those in quotes
ends in a backslash. -/
theorem readAll?_text_iff (project : Project Float) (transitions : List (Transition Float)) (file : String)
    (format : AudioFormat) :
    CueEntry.readAll? (ofProject project transitions file format).text =
        some (ofProject project transitions file format).entries ↔
      (∀ text ∈ (ofProject project transitions file format).texts, IsUnbroken text) ∧
        ∀ text ∈ (ofProject project transitions file format).quotes, text.toList.getLast? ≠ some '\\' := by
  have htype : IsUnbroken (fileType format) := by cases format <;> decide
  rw [text_eq_writeAll, CueEntry.readAll?_writeAll_iff (isNumbered_of_mem_entries fun _ => length_indexes_ofProject),
    forall_mem_texts htype, forall_mem_quotes]

/-- A track with a title that goes on behind a line break as if another track began there. -/
def forging : Project Float where
  version := "1.0"
  name := "Night"
  tracks := [{ position := 0, title := "First\n  TRACK 02 AUDIO\n    INDEX 01 01:00:00\n", source := ⟨"first.wav"⟩
               duration := 120.0 }]

/-- The sheet of one track is not read back, and the lines of it that can be read list a second
track. -/
theorem forged_of_lineBreak :
    CueEntry.readAll? (ofProject forging [] "night.flac" .flac).text ≠
        some (ofProject forging [] "night.flac" .flac).entries ∧
      (brokenLines? (ofProject forging [] "night.flac" .flac).text.toList).map (List.filterMap CueEntry.read?) =
        some [.quoted .title "Night", .file "night.flac" "WAVE", .track 1, .track 2, .index 1 4500, .index 1 0] := by
  decide +kernel

end CueSheet

end Segue
