import Segue.Cue.Sheet
import Segue.Proofs.Cue.Frames
import Segue.Proofs.Graph.Labels
import Segue.Proofs.Graph.Reading
import Segue.Proofs.Text.Parts

/-!
Reading a cue sheet back from its text. Main statement: a sheet whose texts have no line breaks, and
whose tracks have at most so many indexes as there are numbers of two digits, falls into its header
and a block for each track.
-/

namespace Segue

namespace Numeral

/-- A number with two digits or more. -/
def padded? (digits : List Char) : Option Nat :=
  if 2 ≤ digits.length ∧ digits.all Char.isDigit then some (digitsValue digits) else none

def pair? (digits : List Char) : Option Nat := if digits.length = 2 then padded? digits else none

theorem toList_twoDigits (n : Nat) :
    (twoDigits n).toList = List.replicate (2 - (toString n).length) '0' ++ Nat.toDigits 10 n := by
  rw [twoDigits, padZeros, String.toList_append, String.toList_ofList, toList_toString]

theorem length_twoDigits (n : Nat) : (twoDigits n).toList.length = max 2 (Nat.toDigits 10 n).length := by
  rw [toList_twoDigits, List.length_append, List.length_replicate, ← String.length_toList, toList_toString]
  omega

theorem isDigit_of_mem_twoDigits {n : Nat} {c : Char} (h : c ∈ (twoDigits n).toList) : c.isDigit = true := by
  rw [toList_twoDigits, List.mem_append] at h
  rcases h with h | h
  · rw [List.eq_of_mem_replicate h]
    rfl
  · exact isDigit_of_mem_toDigits_ten h

theorem digitsValue_replicate_zero (count : Nat) (digits : List Char) :
    digitsValue (List.replicate count '0' ++ digits) = digitsValue digits := by
  induction count with
  | zero => rfl
  | succ count ih => exact ih

theorem padded?_twoDigits (n : Nat) : padded? (twoDigits n).toList = some n := by
  have hlength : 2 ≤ (twoDigits n).toList.length := by
    rw [length_twoDigits]
    exact le_max_left _ _
  have hdigits : (twoDigits n).toList.all Char.isDigit = true :=
    List.all_eq_true.mpr fun _ => isDigit_of_mem_twoDigits
  rw [padded?, if_pos ⟨hlength, hdigits⟩, toList_twoDigits, digitsValue_replicate_zero,
    Pad.digitsValue_toDigits]

theorem pair?_twoDigits {n : Nat} (h : n < 100) : pair? (twoDigits n).toList = some n := by
  have hlength : (Nat.toDigits 10 n).length ≤ 2 := (Nat.length_toDigits_le_iff (by decide) (by decide)).mpr h
  rw [pair?, if_pos ((length_twoDigits n).trans (max_eq_left hlength)), padded?_twoDigits]

end Numeral

open Segue.Numeral (padded? pair? padded?_twoDigits pair?_twoDigits isDigit_of_mem_twoDigits)

theorem not_mem_twoDigits (mark : Char) (h : mark.isDigit = false) (n : Nat) : mark ∉ (twoDigits n).toList := by
  intro hmem
  rw [isDigit_of_mem_twoDigits hmem] at h
  cases h

namespace CueTime

/-- Minutes, seconds and frames with colons between them, as a count of frames. -/
def read? (text : List Char) : Option Nat :=
  match text.splitOn ':' with
  | [minutes, seconds, frames] => do
    let minutes ← padded? minutes
    let seconds ← pair? seconds
    let frames ← pair? frames
    if seconds < 60 ∧ frames < framesPerSecond then some ((minutes * 60 + seconds) * framesPerSecond + frames) else none
  | _ => none

def ofFrames (count : Nat) : String :=
  twoDigits (count / framesPerSecond / 60) ++ ":" ++ twoDigits (count / framesPerSecond % 60) ++ ":"
    ++ twoDigits (count % framesPerSecond)

theorem toList_ofFrames (count : Nat) :
    (ofFrames count).toList = [':'].intercalate [(twoDigits (count / framesPerSecond / 60)).toList,
      (twoDigits (count / framesPerSecond % 60)).toList, (twoDigits (count % framesPerSecond)).toList] := by
  simp only [ofFrames, String.toList_append, List.intercalate_cons_cons, List.intercalate_singleton, List.append_assoc]
  rfl

theorem frames_lt (seconds : Float) : frames seconds < framesPerSecond :=
  Nat.lt_of_le_of_lt (Nat.min_le_right _ _) (by decide)

/-- A time is written as the frames that it shows. -/
theorem text_eq_ofFrames (seconds : Float) : text seconds = ofFrames (frameCount seconds) := by
  have hframes := frames_lt seconds
  have hwhole : frameCount seconds / framesPerSecond = wholeSeconds seconds := by
    rw [frameCount, Nat.mul_comm, Nat.mul_add_div (by decide), Nat.div_eq_of_lt hframes, Nat.add_zero]
  have hrest : frameCount seconds % framesPerSecond = frames seconds := by
    rw [frameCount, Nat.mul_add_mod', Nat.mod_eq_of_lt hframes]
  rw [text, ofFrames, hwhole, hrest]

/-- A count of frames is read back from its text. -/
theorem read?_ofFrames (count : Nat) : read? (ofFrames count).toList = some count := by
  have hparts : ∀ part ∈ [(twoDigits (count / framesPerSecond / 60)).toList,
      (twoDigits (count / framesPerSecond % 60)).toList, (twoDigits (count % framesPerSecond)).toList],
      ':' ∉ part := by
    simp only [List.forall_mem_cons, not_mem_twoDigits ':' rfl, not_false_eq_true, true_and]
    exact nofun
  have hframes : count % framesPerSecond < framesPerSecond := Nat.mod_lt _ (by decide)
  have hseconds : count / framesPerSecond % 60 < 60 := Nat.mod_lt _ (by decide)
  rw [read?, toList_ofFrames, List.splitOn_intercalate _ hparts (List.cons_ne_nil _ _)]
  simp only [padded?_twoDigits, pair?_twoDigits (Nat.lt_trans hseconds (by decide)),
    pair?_twoDigits (Nat.lt_trans hframes (by decide)), Option.bind_eq_bind, Option.bind_some, hseconds, hframes,
    and_self, if_true, Nat.div_add_mod']

/-- The time that is shown is read back from its text, whatever the time is. -/
theorem read?_text (seconds : Float) : read? (text seconds).toList = some (frameCount seconds) := by
  rw [text_eq_ofFrames, read?_ofFrames]

example : read? "03:15:38".toList = some 14663 := by decide

end CueTime

/-! ### Lines -/

/-- The lines of a text; each has a line break behind it. -/
def linesOf? (text : List Char) : Option (List (List Char)) :=
  let pieces := text.splitOn '\n'
  if pieces.getLast? = some [] then some pieces.dropLast else none

def IsLine (text : String) : Prop := '\n' ∉ text.toList

instance (text : String) : Decidable (IsLine text) := inferInstanceAs (Decidable ('\n' ∉ text.toList))

theorem IsLine.append {first second : String} (hfirst : IsLine first) (hsecond : IsLine second) :
    IsLine (first ++ second) := by
  rw [IsLine, String.toList_append, List.mem_append, not_or]
  exact ⟨hfirst, hsecond⟩

theorem isLine_twoDigits (n : Nat) : IsLine (twoDigits n) := not_mem_twoDigits '\n' rfl n

theorem CueTime.isLine_text (seconds : Float) : IsLine (text seconds) :=
  ((((isLine_twoDigits _).append (by decide)).append (isLine_twoDigits _)).append (by decide)).append
    (isLine_twoDigits _)

theorem intercalate_append_nil {α : Type} (mark : α) (lines : List (List α)) :
    [mark].intercalate (lines ++ [[]]) = lines.flatMap (· ++ [mark]) := by
  induction lines with
  | nil => rfl
  | cons line lines ih =>
      rw [List.cons_append, List.intercalate_cons_of_ne_nil (by simp), ih, List.flatMap_cons]

theorem linesOf?_join {lines : List String} (h : ∀ line ∈ lines, IsLine line) :
    linesOf? (String.join (lines.map fun line => line ++ "\n")).toList = some (lines.map String.toList) := by
  have htext : (String.join (lines.map fun line => line ++ "\n")).toList =
      ['\n'].intercalate (lines.map String.toList ++ [[]]) := by
    rw [intercalate_append_nil, String.toList_join, List.flatMap_map, List.flatMap_map]
    congr 1
    funext line
    exact String.toList_append
  have hpieces : ∀ piece ∈ lines.map String.toList ++ [[]], '\n' ∉ piece := by
    intro piece hpiece
    rcases List.mem_append.mp hpiece with hpiece | hpiece
    · obtain ⟨line, hline, rfl⟩ := List.mem_map.mp hpiece
      exact h line hline
    · rw [List.mem_singleton.mp hpiece]
      exact nofun
  simp only [linesOf?, htext, List.splitOn_intercalate _ hpieces (by simp), List.getLast?_concat, List.dropLast_concat,
    if_true]

/-- What stands before the first line of some kind, and each line of that kind with what follows it
up to the next. -/
def cutBlocks {α : Type} (starts : α → Bool) : List α → List α × List (α × List α)
  | [] => ([], [])
  | line :: lines =>
    let (front, blocks) := cutBlocks starts lines
    if starts line then ([], (line, front) :: blocks) else (line :: front, blocks)

theorem cutBlocks_append {α : Type} {starts : α → Bool} {front : List α} (h : ∀ line ∈ front, starts line = false)
    (lines : List α) :
    cutBlocks starts (front ++ lines) = (cutBlocks starts lines).map (front ++ ·) id := by
  induction front with
  | nil => rfl
  | cons line front ih =>
      have hline := h line List.mem_cons_self
      rw [List.cons_append, cutBlocks, ih fun line hmem => h line (List.mem_cons_of_mem _ hmem)]
      simp only [hline, Bool.false_eq_true, if_false]
      rfl

theorem cutBlocks_flatMap {α : Type} {starts : α → Bool} {blocks : List (α × List α)}
    (h : ∀ block ∈ blocks, starts block.1 = true ∧ ∀ line ∈ block.2, starts line = false) :
    cutBlocks starts (blocks.flatMap fun block => block.1 :: block.2) = ([], blocks) := by
  induction blocks with
  | nil => rfl
  | cons block blocks ih =>
      obtain ⟨hstarts, hlines⟩ := h block List.mem_cons_self
      rw [List.flatMap_cons, List.cons_append, cutBlocks, cutBlocks_append hlines,
        ih fun block hmem => h block (List.mem_cons_of_mem _ hmem)]
      simp [hstarts]

/-- A track of a cue sheet as it is read. -/
structure CueBlock where
  number : Nat
  /-- The lines between the number of the track and its indexes. -/
  fields : List (List Char)
  /-- The number of each index and the frames that it shows. -/
  indexes : List (Nat × Nat)

namespace CueBlock

def trackMark : List Char := "  TRACK ".toList

def indexMark : List Char := "    INDEX ".toList

def number? (line : List Char) : Option Nat := do
  let rest ← line.dropPrefix? trackMark
  let digits ← rest.dropSuffix? " AUDIO".toList
  padded? digits

def index? (line : List Char) : Option (Nat × Nat) := do
  let rest ← line.dropPrefix? indexMark
  match cutFirst ' ' rest with
  | (number, some time) => some (← pair? number, ← CueTime.read? time)
  | (_, none) => none

/-- The indexes begin with the first line that is marked as one, and no other line stands behind it. -/
def read? (block : List Char × List (List Char)) : Option CueBlock := do
  let number ← number? block.1
  let indexes ← (block.2.dropWhile fun line => !indexMark.isPrefixOf line).mapM index?
  return { number, fields := block.2.takeWhile fun line => !indexMark.isPrefixOf line, indexes }

theorem number?_trackLine (number : Nat) :
    number? ("  TRACK " ++ twoDigits number ++ " AUDIO").toList = some number := by
  have hline : ("  TRACK " ++ twoDigits number ++ " AUDIO").toList =
      trackMark ++ ((twoDigits number).toList ++ " AUDIO".toList) := by
    rw [String.toList_append, String.toList_append, List.append_assoc]
    rfl
  have hsuffix := List.dropSuffix?_eq_some_iff.mpr
    ⟨" AUDIO".toList, Eq.refl ((twoDigits number).toList ++ " AUDIO".toList), beq_self_eq_true " AUDIO".toList⟩
  simp only [number?, hline, List.dropPrefix?_append_of_beq _ (beq_self_eq_true trackMark), hsuffix,
    Option.bind_eq_bind, Option.bind_some, padded?_twoDigits]

theorem toList_indexLine (place : Nat) (time : Float) :
    (CueSheet.indexLine place time).toList =
      indexMark ++ ((twoDigits (place + 1)).toList ++ ' ' :: (CueTime.text time).toList) := by
  rw [CueSheet.indexLine, String.toList_append, String.toList_append, String.toList_append, List.append_assoc,
    List.append_assoc]
  rfl

theorem index?_ofFrames {number : Nat} (h : number < 100) (frames : Nat) :
    index? (indexMark ++ ((twoDigits number).toList ++ ' ' :: (CueTime.ofFrames frames).toList)) =
      some (number, frames) := by
  have hcut := cutFirst_append (not_mem_twoDigits ' ' rfl number) (CueTime.ofFrames frames).toList
  simp only [index?, List.dropPrefix?_append_of_beq _ (beq_self_eq_true indexMark), hcut, Option.bind_eq_bind,
    Option.bind_some, pair?_twoDigits h, CueTime.read?_ofFrames]

theorem index?_indexLine {place : Nat} (h : place < 99) (time : Float) :
    index? (CueSheet.indexLine place time).toList = some (place + 1, CueTime.frameCount time) := by
  rw [toList_indexLine, CueTime.text_eq_ofFrames, index?_ofFrames (Nat.succ_lt_succ h)]

theorem isPrefixOf_optionalLine {mark : List Char} {label : String}
    (h : ∀ rest, mark.isPrefixOf (label.toList ++ rest) = false) {field : Option String} {line : String}
    (hline : line ∈ CueSheet.optionalLine label field) : mark.isPrefixOf line.toList = false := by
  cases field with
  | none => cases hline
  | some text =>
      rw [List.mem_singleton.mp hline, String.toList_append, String.toList_append, List.append_assoc]
      exact h _

end CueBlock

namespace CueTrack

open Segue.CueBlock (trackMark indexMark)

/-- The lines of a track between its number and its indexes. -/
def fieldLines (track : CueTrack Float) : List String :=
  ("    TITLE " ++ CueSheet.quoted track.title) :: CueSheet.optionalLine "    PERFORMER" track.performer

/-- What is read from the lines of a track. -/
def block (track : CueTrack Float) (place : Nat) : CueBlock where
  number := place + 1
  fields := track.fieldLines.map String.toList
  indexes := track.indexes.mapIdx fun place time => (place + 1, CueTime.frameCount time)

variable {track : CueTrack Float}

/-- No field is taken for an index or for another track. -/
theorem isPrefixOf_of_mem_fieldLines {line : String} (h : line ∈ track.fieldLines) :
    indexMark.isPrefixOf line.toList = false ∧ trackMark.isPrefixOf line.toList = false := by
  rcases List.mem_cons.mp h with rfl | hline
  · rw [String.toList_append]
    exact ⟨rfl, rfl⟩
  · exact ⟨CueBlock.isPrefixOf_optionalLine (fun _ => rfl) hline,
      CueBlock.isPrefixOf_optionalLine (fun _ => rfl) hline⟩

theorem isPrefixOf_of_mem_indexLines {line : String} (h : line ∈ track.indexes.mapIdx CueSheet.indexLine) :
    indexMark.isPrefixOf line.toList = true ∧ trackMark.isPrefixOf line.toList = false := by
  obtain ⟨place, hplace, rfl⟩ := List.mem_mapIdx.mp h
  rw [CueBlock.toList_indexLine]
  exact ⟨List.isPrefixOf_iff_prefix.mpr (List.prefix_append _ _), rfl⟩

theorem mapM_indexLines (h : track.indexes.length ≤ maxIndex) :
    ((track.indexes.mapIdx CueSheet.indexLine).map String.toList).mapM CueBlock.index? =
      some (track.indexes.mapIdx fun place time => (place + 1, CueTime.frameCount time)) := by
  rw [List.mapIdx_eq_zipIdx_map, List.mapIdx_eq_zipIdx_map, List.map_map]
  refine mapM_map_eq_some fun item hitem => ?_
  have hplace := List.snd_lt_of_mem_zipIdx hitem
  exact CueBlock.index?_indexLine (by rw [maxIndex] at h; omega) item.1

theorem read?_lines (h : track.indexes.length ≤ maxIndex) (place : Nat) :
    CueBlock.read? (("  TRACK " ++ twoDigits (place + 1) ++ " AUDIO").toList,
      (track.fieldLines ++ track.indexes.mapIdx CueSheet.indexLine).map String.toList) = some (track.block place) := by
  have hfields : ∀ line ∈ track.fieldLines.map String.toList, (!indexMark.isPrefixOf line) = true := by
    intro line hline
    obtain ⟨text, htext, rfl⟩ := List.mem_map.mp hline
    rw [(isPrefixOf_of_mem_fieldLines htext).1, Bool.not_false]
  have hindexes : ∀ line ∈ (track.indexes.mapIdx CueSheet.indexLine).map String.toList,
      ¬(!indexMark.isPrefixOf line) = true := by
    intro line hline
    obtain ⟨text, htext, rfl⟩ := List.mem_map.mp hline
    rw [(isPrefixOf_of_mem_indexLines htext).1, Bool.not_true]
    exact Bool.false_ne_true
  have hmapM := mapM_indexLines h
  -- the fields end where the first index stands, and behind it there are indexes only
  rw [List.map_append]
  generalize (track.indexes.mapIdx CueSheet.indexLine).map String.toList = lines at hindexes hmapM
  have htake : lines.takeWhile (fun line => !indexMark.isPrefixOf line) = [] := by
    cases lines with
    | nil => rfl
    | cons line lines => exact List.takeWhile_cons_of_neg (hindexes line List.mem_cons_self)
  have hdrop : lines.dropWhile (fun line => !indexMark.isPrefixOf line) = lines := by
    cases lines with
    | nil => rfl
    | cons line lines => exact List.dropWhile_cons_of_neg (hindexes line List.mem_cons_self)
  simp only [CueBlock.read?, CueBlock.number?_trackLine, List.takeWhile_append_of_pos hfields,
    List.dropWhile_append_of_pos hfields, htake, hdrop, hmapM, Option.bind_eq_bind, Option.bind_some, List.append_nil]
  rfl

end CueTrack

namespace CueSheet

/-- The header of a sheet and its tracks. -/
def read? (text : String) : Option (List (List Char) × List CueBlock) := do
  let lines ← linesOf? text.toList
  let (header, blocks) := cutBlocks (CueBlock.trackMark.isPrefixOf ·) lines
  return (header, ← blocks.mapM CueBlock.read?)

variable {sheet : CueSheet Float}

theorem isPrefixOf_of_mem_headerLines {line : String} (h : line ∈ sheet.headerLines) :
    CueBlock.trackMark.isPrefixOf line.toList = false := by
  simp only [headerLines, List.mem_append, List.mem_cons, List.not_mem_nil, or_false] at h
  rcases h with (((h | h) | h) | h) | rfl | rfl
  · exact CueBlock.isPrefixOf_optionalLine (fun _ => rfl) h
  · cases hdate : sheet.date with
    | none => simp [hdate] at h
    | some date =>
        simp only [hdate, List.mem_singleton] at h
        rw [h, String.toList_append]
        rfl
  · exact CueBlock.isPrefixOf_optionalLine (fun _ => rfl) h
  · exact CueBlock.isPrefixOf_optionalLine (fun _ => rfl) h
  · rw [String.toList_append]
    rfl
  · rw [String.toList_append, String.toList_append, String.toList_append, List.append_assoc, List.append_assoc]
    rfl

def blockLines (track : CueTrack Float) (place : Nat) : List Char × List (List Char) :=
  (("  TRACK " ++ twoDigits (place + 1) ++ " AUDIO").toList,
    (track.fieldLines ++ track.indexes.mapIdx indexLine).map String.toList)

theorem map_toList_trackLines (track : CueTrack Float) (place : Nat) :
    (trackLines place track).map String.toList = (blockLines track place).1 :: (blockLines track place).2 := by
  simp only [trackLines, blockLines, CueTrack.fieldLines, List.map_append, List.map_cons, List.cons_append,
    List.nil_append]

theorem cutBlocks_lines (sheet : CueSheet Float) :
    cutBlocks (CueBlock.trackMark.isPrefixOf ·) (sheet.lines.map String.toList) =
      (sheet.headerLines.map String.toList, sheet.tracks.mapIdx fun place track => blockLines track place) := by
  have hlines : sheet.lines.map String.toList = sheet.headerLines.map String.toList ++
      (sheet.tracks.mapIdx fun place track => blockLines track place).flatMap fun block => block.1 :: block.2 := by
    have htracks : (sheet.tracks.mapIdx trackLines).map (List.map String.toList) =
        (sheet.tracks.mapIdx fun place track => blockLines track place).map fun block => block.1 :: block.2 := by
      rw [List.mapIdx_eq_zipIdx_map, List.mapIdx_eq_zipIdx_map, List.map_map, List.map_map]
      exact List.map_congr_left fun item _ => map_toList_trackLines item.1 item.2
    rw [lines, List.map_append, List.map_flatten, List.flatMap_def, htracks]
  have hheader : ∀ line ∈ sheet.headerLines.map String.toList, CueBlock.trackMark.isPrefixOf line = false :=
    List.forall_mem_map.mpr fun _ => isPrefixOf_of_mem_headerLines
  have hblocks : ∀ block ∈ sheet.tracks.mapIdx fun place track => blockLines track place,
      CueBlock.trackMark.isPrefixOf block.1 = true ∧
        ∀ line ∈ block.2, CueBlock.trackMark.isPrefixOf line = false := by
    intro block hblock
    obtain ⟨place, hplace, rfl⟩ := List.mem_mapIdx.mp hblock
    constructor
    · rw [blockLines, String.toList_append, String.toList_append, List.append_assoc]
      exact List.isPrefixOf_iff_prefix.mpr (List.prefix_append _ _)
    · refine List.forall_mem_map.mpr fun line hline => ?_
      rcases List.mem_append.mp hline with hline | hline
      · exact (CueTrack.isPrefixOf_of_mem_fieldLines hline).2
      · exact (CueTrack.isPrefixOf_of_mem_indexLines hline).2
  rw [hlines, cutBlocks_append hheader, cutBlocks_flatMap hblocks]
  simp

def texts (sheet : CueSheet Float) : List String :=
  sheet.genre.toList ++ sheet.date.toList ++ sheet.comment.toList ++ sheet.performer.toList
    ++ [sheet.title, sheet.file] ++ sheet.tracks.flatMap fun track => track.title :: track.performer.toList

theorem isLine_quoted {text : String} (h : IsLine text) : IsLine (quoted text) := by
  rw [IsLine, quoted, String.toList_ofList, List.mem_append, List.mem_cons, List.mem_flatMap]
  rintro ((heq | ⟨c, hc, hmem⟩) | hmem)
  · cases heq
  · split at hmem
    · simp at hmem
    · exact h (List.mem_singleton.mp hmem ▸ hc)
  · simp at hmem

theorem isLine_optionalLine {label line : String} {field : Option String} (hlabel : IsLine label)
    (hfield : ∀ text ∈ field.toList, IsLine text) (hline : line ∈ optionalLine label field) : IsLine line := by
  cases field with
  | none => cases hline
  | some text =>
      rw [List.mem_singleton.mp hline]
      exact (hlabel.append (by decide)).append (isLine_quoted (hfield text (List.mem_singleton_self text)))

theorem isLine_of_mem_headerLines (h : ∀ text ∈ sheet.texts, IsLine text) {line : String}
    (hline : line ∈ sheet.headerLines) : IsLine line := by
  simp only [headerLines, List.mem_append, List.mem_cons, List.not_mem_nil, or_false] at hline
  rcases hline with (((hline | hline) | hline) | hline) | rfl | rfl
  · exact isLine_optionalLine (by decide) (fun text htext => h text (by simp [texts, htext])) hline
  · cases hdate : sheet.date with
    | none => simp [hdate] at hline
    | some date =>
        simp only [hdate, List.mem_singleton] at hline
        rw [hline]
        exact IsLine.append (by decide) (h date (by simp [texts, hdate]))
  · exact isLine_optionalLine (by decide) (fun text htext => h text (by simp [texts, htext])) hline
  · exact isLine_optionalLine (by decide) (fun text htext => h text (by simp [texts, htext])) hline
  · exact IsLine.append (by decide) (isLine_quoted (h sheet.title (by simp [texts])))
  · have hfile : IsLine (quoted sheet.file) := isLine_quoted (h sheet.file (by simp [texts]))
    have htype : IsLine (fileType sheet.format) := by cases sheet.format <;> decide
    exact ((IsLine.append (by decide) hfile).append (by decide)).append htype

theorem isLine_of_mem_trackLines {track : CueTrack Float} {place : Nat} {line : String}
    (h : ∀ text ∈ track.title :: track.performer.toList, IsLine text) (hline : line ∈ trackLines place track) :
    IsLine line := by
  simp only [trackLines, List.mem_append, List.mem_cons, List.not_mem_nil, or_false] at hline
  rcases hline with ((rfl | rfl) | hline) | hline
  · exact (IsLine.append (by decide) (isLine_twoDigits _)).append (by decide)
  · exact IsLine.append (by decide) (isLine_quoted (h track.title List.mem_cons_self))
  · exact isLine_optionalLine (by decide) (fun text htext => h text (List.mem_cons_of_mem _ htext)) hline
  · obtain ⟨index, hindex, rfl⟩ := List.mem_mapIdx.mp hline
    exact ((IsLine.append (by decide) (isLine_twoDigits _)).append (by decide)).append (CueTime.isLine_text _)

/-- A sheet is read back from its text. -/
theorem read?_text (htexts : ∀ text ∈ sheet.texts, IsLine text)
    (hfew : ∀ track ∈ sheet.tracks, track.indexes.length ≤ maxIndex) :
    read? sheet.text =
      some (sheet.headerLines.map String.toList, sheet.tracks.mapIdx fun place track => track.block place) := by
  have hblocks : (sheet.tracks.mapIdx fun place track => blockLines track place).mapM CueBlock.read? =
      some (sheet.tracks.mapIdx fun place track => track.block place) := by
    rw [List.mapIdx_eq_zipIdx_map, List.mapIdx_eq_zipIdx_map]
    refine mapM_map_eq_some fun item hitem => ?_
    exact CueTrack.read?_lines (hfew item.1 (List.fst_mem_of_mem_zipIdx hitem)) item.2
  have hlines : ∀ line ∈ sheet.lines, IsLine line := by
    intro line hline
    rcases List.mem_append.mp hline with hheader | hblock
    · exact isLine_of_mem_headerLines htexts hheader
    · obtain ⟨block, hblock, hline⟩ := List.mem_flatten.mp hblock
      obtain ⟨place, hplace, rfl⟩ := List.mem_mapIdx.mp hblock
      refine isLine_of_mem_trackLines (fun text htext => htexts text ?_) hline
      exact List.mem_append_right _ (List.mem_flatMap.mpr ⟨_, List.getElem_mem hplace, htext⟩)
  simp only [read?, text, linesOf?_join hlines, cutBlocks_lines, hblocks, Option.bind_eq_bind, Option.bind_some]
  rfl

end CueSheet

end Segue
