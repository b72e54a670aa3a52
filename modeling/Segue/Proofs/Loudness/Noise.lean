import Segue.Loudness.Statistics
import Segue.Proofs.Json.Extent

/-!
What a measuring run prints before its statistics. Main statement: the statistics are found and read
behind just those texts that leave no block open; behind any other text there are statistics that it
hides.
-/

namespace Segue

namespace Json

/-- A text from the opening to the closing brace of an object that can be read, with the members of
that. -/
structure IsObjectText (text : List Char) (members : List (String × Json)) : Prop where
  head : text.head? = some '\x7b'
  last : text.getLast? = some '\x7d'
  read : parse? (String.ofList text) = some (.object members)

/-- A value without parts, which can be read. -/
def IsSimple : Json → Prop
  | .array _ | .object _ | .unreadable => False
  | _ => True

/-- An object without objects and arrays inside. -/
def IsFlat (members : List (String × Json)) : Prop := ∀ member ∈ members, member.2.IsSimple

/-- A finite number that a value gives, as such or as text with blanks around it. -/
inductive Denotes : Json → Float → Prop
  | int (value : Int) : Denotes (.int value) (Float.ofInt value)
  | float (value : Float) : Denotes (.float value) value
  | text {text : String} {value : Float} (hread : Numeral.float? (Text.trim text) = some value)
      (hfinite : value.isFinite = true) : Denotes (.string text) value

/-- The last member of a name gives a number. -/
def Gives (members : List (String × Json)) (name : String) (number : Float) : Prop :=
  ∃ before value after, members = before ++ (name, value) :: after ∧ (∀ member ∈ after, member.1 ≠ name) ∧
    value.Denotes number

/-- An object text is a block. -/
theorem IsObjectText.block {text : List Char} {members : List (String × Json)} (h : IsObjectText text members) :
    ∃ inner, text = '\x7b' :: (inner ++ ['\x7d']) ∧ Block.Inner inner := by
  obtain ⟨hhead, hlast, hread⟩ := h
  obtain ⟨tail, rfl⟩ := List.head?_eq_some_iff.mp hhead
  obtain ⟨rest, hvalue, hblank⟩ := parse?_ofList.mp hread
  obtain ⟨inner, rfl, hinner⟩ := (extents _).object hvalue
  refine ⟨inner, ?_, hinner⟩
  -- behind the object there are only blanks, but the text ends in a brace
  have hblanks : rest.takeWhile isBlank = rest := by
    have hsplit := List.takeWhile_append_dropWhile (p := isBlank) (l := rest)
    rwa [show rest.dropWhile isBlank = [] from hblank, List.append_nil] at hsplit
  rcases List.eq_nil_or_concat rest with rfl | ⟨before, last, rfl⟩
  · rfl
  · have hlastBlank : isBlank last = true := by
      have hall := List.all_takeWhile (p := isBlank) (l := before.concat last)
      rw [hblanks, List.concat_eq_append] at hall
      exact List.all_eq_true.mp hall last (by simp)
    have hsplit : '\x7b' :: (inner ++ '\x7d' :: before.concat last) =
        ('\x7b' :: (inner ++ '\x7d' :: before)) ++ [last] := by simp
    rw [hsplit, List.getLast?_concat] at hlast
    cases hlast
    cases hlastBlank

theorem isReadable_of_isFlat {members : List (String × Json)} (h : IsFlat members) :
    areMembersReadable members = true := by
  induction members with
  | nil => rfl
  | cons member members ih =>
      obtain ⟨name, value⟩ := member
      have hvalue := h _ List.mem_cons_self
      rw [areMembersReadable, ih fun member hmember => h member (List.mem_cons_of_mem _ hmember), Bool.and_true]
      cases value with
      | array | object | unreadable => exact hvalue.elim
      | _ => rfl

theorem nesting_of_isFlat {members : List (String × Json)} (h : IsFlat members) : nestingOfMembers members = 0 := by
  induction members with
  | nil => rfl
  | cons member members ih =>
      obtain ⟨name, value⟩ := member
      have hvalue := h _ List.mem_cons_self
      rw [nestingOfMembers, ih fun member hmember => h member (List.mem_cons_of_mem _ hmember), Nat.max_zero]
      cases value with
      | array | object | unreadable => exact hvalue.elim
      | _ => rfl

end Json

namespace Measurement

open Json

structure Holds (members : List (String × Json)) (measured : Measurement Float) : Prop where
  integrated : Gives members "input_i" measured.integrated
  truePeak : Gives members "input_tp" measured.truePeak
  range : Gives members "input_lra" measured.range
  threshold : Gives members "input_thresh" measured.threshold

theorem finiteNumber?_of_denotes {value : Json} {number : Float} (h : value.Denotes number) :
    finiteNumber? value = some number := by
  cases h with
  | int | float => rfl
  | text hread hfinite => rw [finiteNumber?, hread, Option.filter_some, if_pos hfinite]

theorem statistic_of_gives {members : List (String × Json)} {name : String} {number : Float}
    (h : Gives members name number) : statistic members name = .ok number := by
  obtain ⟨before, value, after, rfl, hafter, hvalue⟩ := h
  have hlookup : (before ++ (name, value) :: after).reverse.lookup name = some value := by
    have hnone : after.reverse.lookup name = none := by
      rw [List.lookup_eq_none_iff]
      intro member hmember
      simpa using Ne.symm (hafter member (List.mem_reverse.mp hmember))
    rw [List.reverse_append, List.reverse_cons, List.append_assoc, List.lookup_append, hnone]
    simp
  rw [statistic, hlookup]
  dsimp only
  rw [finiteNumber?_of_denotes hvalue]

/-- What the output says is what its last block says. -/
theorem ofOutput_congr {output output' : List Char} (h : Block.last? output = Block.last? output') :
    ofOutput output = ofOutput output' := by
  rw [ofOutput, ofOutput, h]

theorem ofOutput_of_last? {output text : List Char} {members : List (String × Json)} {measured : Measurement Float}
    (hlast : Block.last? output = some text) (hmembers : members? text = some members)
    (hholds : Holds members measured) : ofOutput output = .ok measured := by
  rw [ofOutput, hlast]
  dsimp only
  rw [hmembers]
  dsimp only
  rw [statistic_of_gives hholds.integrated, statistic_of_gives hholds.truePeak, statistic_of_gives hholds.range,
    statistic_of_gives hholds.threshold]
  rfl

theorem members?_of_isObjectText {text : List Char} {members : List (String × Json)} (h : IsObjectText text members)
    (hreadable : Json.isReadable (.object members) = true) (hnesting : Json.nesting (.object members) ≤ maxNesting) :
    members? text = some members := by
  rw [members?, h.read]
  exact if_pos ⟨hreadable, hnesting⟩

theorem members?_of_isFlat {text : List Char} {members : List (String × Json)} (h : IsObjectText text members)
    (hflat : IsFlat members) : members? text = some members :=
  members?_of_isObjectText h (isReadable_of_isFlat hflat)
    (by rw [Json.nesting, nesting_of_isFlat hflat]; decide)

/-- Statistics are found and read behind a text that leaves no block open. -/
theorem ofOutput_of_closed {noise text rest : List Char} {members : List (String × Json)}
    {measured : Measurement Float} (hnoise : Block.Closed noise) (htext : IsObjectText text members)
    (hmembers : members? text = some members) (hholds : Holds members measured) (hrest : ∀ c ∈ rest, c ≠ '\x7b') :
    ofOutput (noise ++ text ++ rest) = .ok measured := by
  obtain ⟨inner, rfl, hinner⟩ := htext.block
  exact ofOutput_of_last? (Block.last?_of_closed hnoise hinner hrest) hmembers hholds

/-- Statistics that give one digit four times: their names, each with what stands behind its digit. -/
def digitParts : List (String × Char) :=
  [("input_i", ','), ("input_tp", ','), ("input_lra", ','), ("input_thresh", '\x7d')]

def digitText (digit : Char) : List Char :=
  '\x7b' :: digitParts.flatMap fun (name, behind) => '"' :: (name.toList ++ ['"', ':', digit, behind])

def digitMembers (value : Int) : List (String × Json) :=
  [("input_i", .int value), ("input_tp", .int value), ("input_lra", .int value), ("input_thresh", .int value)]

theorem isObjectText_digitText_zero : IsObjectText (digitText '0') (digitMembers 0) :=
  ⟨rfl, rfl, parse?_ofList.mpr ⟨[], rfl, rfl⟩⟩

theorem isObjectText_digitText_one : IsObjectText (digitText '1') (digitMembers 1) :=
  ⟨rfl, rfl, parse?_ofList.mpr ⟨[], rfl, rfl⟩⟩

theorem holds_digitMembers (value : Int) :
    Holds (digitMembers value)
      ⟨Float.ofInt value, Float.ofInt value, Float.ofInt value, Float.ofInt value⟩ where
  integrated := ⟨[], .int value, _, rfl, by simp, .int value⟩
  truePeak := ⟨[_], .int value, _, rfl, by simp, .int value⟩
  range := ⟨[_, _], .int value, _, rfl, by simp, .int value⟩
  threshold := ⟨[_, _, _], .int value, [], rfl, by simp, .int value⟩

theorem isFlat_digitMembers (value : Int) : IsFlat (digitMembers value) := by
  intro member hmember
  simp only [digitMembers, List.mem_cons, List.not_mem_nil, or_false] at hmember
  rcases hmember with rfl | rfl | rfl | rfl <;> trivial

end Measurement

/-- Inside of a block an object makes no difference to what has been found. -/
theorem Json.IsObjectText.scan_inside {text : List Char} {members : List (String × Json)}
    (h : IsObjectText text members) (depth : Nat) (current : List Char) (last : Option (List Char)) :
    (text.foldl Block.Scan.step ⟨depth + 1, false, false, current, last⟩).last = last := by
  obtain ⟨inner, rfl, hinner⟩ := h.block
  rw [List.foldl_cons, Block.step_open, List.foldl_append, Block.scan_inner last hinner, List.foldl_cons,
    Block.step_close]
  rfl

namespace Measurement

open Json

/-- Read from inside of a string, names stand outside of the strings and digits inside. -/
theorem scan_parts {parts : List (String × Char)} (hnames : ∀ part ∈ parts, ∀ c ∈ part.1.toList, Block.IsPlain c)
    (hbehind : ∀ part ∈ parts, part.2 ≠ '"' ∧ part.2 ≠ '\\') {digit : Char} (hdigit : digit.isDigit = true)
    (depth : Nat) (current : List Char) (last : Option (List Char)) :
    ∃ current', (parts.flatMap fun (name, behind) => '"' :: (name.toList ++ ['"', ':', digit, behind])).foldl
      Block.Scan.step ⟨depth + 1, true, false, current, last⟩ = ⟨depth + 1, true, false, current', last⟩ := by
  induction parts generalizing current with
  | nil => exact ⟨current, rfl⟩
  | cons part parts ih =>
      obtain ⟨name, behind⟩ := part
      have hname : Block.Inner name.toList := .of_forall (hnames _ List.mem_cons_self)
      obtain ⟨hquote, hescape⟩ := hbehind _ List.mem_cons_self
      have hdigitQuote : digit ≠ '"' := (isPlain_of_isDigit hdigit).2.2
      have hdigitEscape : digit ≠ '\\' := by
        rintro rfl
        cases hdigit
      rw [List.flatMap_cons, List.foldl_append]
      dsimp only
      rw [List.foldl_cons, Block.step_closeString, List.foldl_append, Block.scan_inner last hname, List.foldl_cons,
        Block.step_openString, List.foldl_cons, Block.step_inString _ _ last (by decide) (by decide), List.foldl_cons,
        Block.step_inString _ _ last hdigitQuote hdigitEscape, List.foldl_cons,
        Block.step_inString _ _ last hquote hescape]
      exact ih (fun part hpart => hnames part (List.mem_cons_of_mem _ hpart))
        (fun part hpart => hbehind part (List.mem_cons_of_mem _ hpart)) _

/-- Nor do these statistics inside of a string, since they end inside of one. -/
theorem scan_digitText {digit : Char} (hdigit : digit.isDigit = true) (depth : Nat) (isEscaped : Bool)
    (current : List Char) (last : Option (List Char)) :
    ((digitText digit).foldl Block.Scan.step ⟨depth + 1, true, isEscaped, current, last⟩).last = last := by
  have hopen : Block.Scan.step ⟨depth + 1, true, isEscaped, current, last⟩ '\x7b' =
      ⟨depth + 1, true, false, '\x7b' :: current, last⟩ := by
    cases isEscaped <;> rfl
  obtain ⟨current', hscan⟩ := @scan_parts digitParts (by simp [digitParts, Block.IsPlain])
    (by simp [digitParts]) _ hdigit depth ('\x7b' :: current) last
  rw [digitText, List.foldl_cons, hopen, hscan]

theorem last?_digitText {noise : List Char} (hnoise : ¬ Block.Closed noise) {digit : Char}
    (hdigit : digit.isDigit = true) {members : List (String × Json)}
    (htext : IsObjectText (digitText digit) members) :
    Block.last? (noise ++ digitText digit) = Block.last? noise := by
  unfold Block.last?
  rw [List.foldl_append]
  have hsound := Block.isSound_empty.run noise
  rw [Block.closed_iff] at hnoise
  generalize noise.foldl Block.Scan.step {} = scan at hsound hnoise
  cases hsound with
  | outside => exact (hnoise rfl).elim
  | inside depth current last => exact htext.scan_inside depth current last
  | inString depth isEscaped current last => exact scan_digitText hdigit depth isEscaped current last

/-- **Noise before statistics.** A text that a measuring run prints before its statistics does no
harm to any of them, whatever it ends in, just when it leaves no block open; quotes, closing braces
and whole blocks in it do not matter. -/
theorem ofOutput_noise_iff (noise : List Char) :
    (∀ text members measured rest, IsObjectText text members → IsFlat members → Holds members measured →
      (∀ c ∈ rest, c ≠ '\x7b' ∧ c ≠ '\x7d') → ofOutput (noise ++ text ++ rest) = .ok measured) ↔
    Block.Closed noise := by
  constructor
  · intro h
    refine Decidable.byContradiction fun hnoise => ?_
    have hzero := h _ _ _ [] isObjectText_digitText_zero (isFlat_digitMembers 0) (holds_digitMembers 0) (by simp)
    have hone := h _ _ _ [] isObjectText_digitText_one (isFlat_digitMembers 1) (holds_digitMembers 1) (by simp)
    rw [List.append_nil] at hzero hone
    -- both would be what was found before them
    rw [ofOutput_congr (last?_digitText hnoise rfl isObjectText_digitText_zero)] at hzero
    rw [ofOutput_congr (last?_digitText hnoise rfl isObjectText_digitText_one), hzero] at hone
    have hbits := congrArg (fun measured : Measurement Float => measured.integrated.toBits) (Except.ok.inj hone)
    revert hbits
    decide
  · intro hnoise text members measured rest htext hflat hholds hrest
    exact ofOutput_of_closed hnoise htext (members?_of_isFlat htext hflat) hholds fun c hc => (hrest c hc).1

theorem ofOutput_noise_iff_pair :
    IsObjectText (digitText '1') (digitMembers 1) ∧
      (ofOutput (['\x7b', '7', '\x7d', '"'] ++ digitText '1' ++ ['\n']) =
        .ok ⟨Float.ofInt 1, Float.ofInt 1, Float.ofInt 1, Float.ofInt 1⟩) :=
  ⟨isObjectText_digitText_one, (ofOutput_noise_iff ['\x7b', '7', '\x7d', '"']).mpr (by decide) _ _ _ ['\n']
    isObjectText_digitText_one (isFlat_digitMembers 1) (holds_digitMembers 1) (by simp)⟩

/-- Braces in a pair, as they stand in the name of a file, hide statistics behind them when there is
a quote in between. -/
theorem ofOutput_quotedPair :
    IsObjectText (digitText '1') (digitMembers 1) ∧ IsFlat (digitMembers 1) ∧
      Holds (digitMembers 1) ⟨Float.ofInt 1, Float.ofInt 1, Float.ofInt 1, Float.ofInt 1⟩ ∧
      ofOutput (['\x7b', '7', '"', '\x7d'] ++ digitText '1' ++ []) = .error .noBlock := by
  refine ⟨isObjectText_digitText_one, isFlat_digitMembers 1, holds_digitMembers 1, ?_⟩
  have hnoise : ¬ Block.Closed ['\x7b', '7', '"', '\x7d'] := by decide
  rw [List.append_nil, ofOutput_congr (last?_digitText hnoise rfl isObjectText_digitText_one)]
  rfl

end Measurement

end Segue
