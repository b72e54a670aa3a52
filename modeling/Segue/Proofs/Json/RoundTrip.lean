import Segue.Proofs.Json.Doubles
import Segue.Proofs.Json.Extent
import Segue.Proofs.Json.Strings

/-!
Values as they are written. Main statement: every value that is written over several lines is read
back, and as the same value when its numbers are.
-/

namespace Segue.Json

def keptFloat (x : Float) : Json := (parse? (floatText x)).getD .null

def keptInt (n : Int) : Json := (Figure.ofNat n.natAbs).value (decide (n < 0))

mutual

/-- What is read back for a value. -/
def kept : Json → Json
  | .null | .unreadable => .null
  | .bool value => .bool value
  | .int value => keptInt value
  | .float value => keptFloat value
  | .string value => .string value
  | .array found => .array (keptElements found)
  | .object found => .object (keptMembers found)

def keptElements : List Json → List Json
  | [] => []
  | head :: tail => kept head :: keptElements tail

def keptMembers : List (String × Json) → List (String × Json)
  | [] => []
  | (name, head) :: tail => (name, kept head) :: keptMembers tail

end

/-- A double that is read back as itself. -/
def ReadsBack (x : Float) : Prop := parse? (floatText x) = some (.float x)

instance (x : Float) : Decidable (ReadsBack x) :=
  decidable_of_iff ((match parse? (floatText x) with | some (.float y) => decide (y = x) | _ => false) = true) <| by
    unfold ReadsBack
    split
    · rename_i y hread
      rw [hread, decide_eq_true_iff, Option.some_inj, float.injEq]
    · rename_i hother
      exact iff_of_false nofun fun hread => hother x hread

theorem keptFloat_of_readsBack {x : Float} (h : ReadsBack x) : keptFloat x = .float x := by
  rw [keptFloat, h, Option.getD_some]

theorem keptInt_natCast {n : Nat} (h : n < 2 ^ 64) : keptInt n = .int n := by
  have hsign : decide ((n : Int) < 0) = false := by simp
  rw [keptInt, hsign, Int.natAbs_natCast, value_ofNat h]

/-- Spacing that the reader passes over. -/
structure Spacing.IsPassedOver (spacing : Spacing) : Prop where
  newline : ∀ depth, ∀ c ∈ (spacing.newline depth).toList, isBlank c = true
  afterColon : ∀ c ∈ spacing.afterColon.toList, isBlank c = true

theorem isPassedOver_indented : Spacing.indented.IsPassedOver where
  newline := by
    intro depth c hc
    rw [Spacing.indented, String.toList_ofList, List.mem_cons] at hc
    rcases hc with rfl | hc
    · rfl
    · rw [List.eq_of_mem_replicate hc]
      rfl
  afterColon := by
    intro c hc
    rw [List.mem_singleton.mp hc]
    rfl

theorem skipBlanks_append {blanks rest : List Char} {c : Char} (hblanks : ∀ d ∈ blanks, isBlank d = true)
    (hc : isBlank c = false) : skipBlanks (blanks ++ c :: rest) = c :: rest := by
  rw [skipBlanks, List.dropWhile_append_of_pos hblanks, List.dropWhile_cons_of_neg (by simp [hc])]

theorem skipBlanks_cons {c : Char} {rest : List Char} (hc : isBlank c = false) :
    skipBlanks (c :: rest) = c :: rest := by
  rw [skipBlanks, List.dropWhile_cons_of_neg (by simp [hc])]

theorem isDigit_of_isBlank {c : Char} (h : isBlank c = true) : c.isDigit = false := by
  simp only [isBlank, Bool.or_eq_true, beq_iff_eq] at h
  rcases h with ((rfl | rfl) | rfl) | rfl <;> rfl

theorem endsNumber_blanks {blanks rest : List Char} {c : Char} (hblanks : ∀ d ∈ blanks, isBlank d = true)
    (hc : EndsNumber (c :: rest)) : EndsNumber (blanks ++ c :: rest) := by
  cases blanks with
  | nil => exact hc
  | cons blank blanks =>
      have hblank := hblanks blank List.mem_cons_self
      refine endsNumber_cons (isDigit_of_isBlank hblank) ?_ ⟨?_, ?_⟩ _
      all_goals
        rintro rfl
        cases hblank

/-- What stands behind the first part of an array or an object. -/
def Spacing.behind (spacing : Spacing) (depth : Nat) (closing : Char) : List String → List Char
  | [] => (spacing.newline depth).toList ++ [closing]
  | part :: parts =>
    ',' :: ((spacing.newline (depth + 1)).toList ++ (part.toList ++ spacing.behind depth closing parts))

theorem intercalate_behind (spacing : Spacing) (depth : Nat) (closing : Char) (part : String) (parts : List String) :
    (',' :: (spacing.newline (depth + 1)).toList).intercalate ((part :: parts).map String.toList) ++
        ((spacing.newline depth).toList ++ [closing]) =
      part.toList ++ spacing.behind depth closing parts := by
  induction parts generalizing part with
  | nil => rw [List.map_cons, List.map_nil, List.intercalate_singleton, Spacing.behind]
  | cons next parts ih =>
      rw [List.map_cons, List.map_cons, List.intercalate_cons_cons, ← List.map_cons, List.append_assoc, ih,
        Spacing.behind, List.append_assoc]
      rfl

theorem toList_enclose (spacing : Spacing) (depth : Nat) {opening closing : String} {opener closer : Char}
    (hopening : opening.toList = [opener]) (hclosing : closing.toList = [closer]) (part : String)
    (parts : List String) :
    (spacing.enclose depth opening closing (part :: parts)).toList =
      opener :: ((spacing.newline (depth + 1)).toList ++ (part.toList ++ spacing.behind depth closer parts)) := by
  have hcomma : ",".toList = [','] := rfl
  change (opening ++ spacing.newline (depth + 1) ++
    ("," ++ spacing.newline (depth + 1)).intercalate (part :: parts) ++ spacing.newline depth ++ closing).toList = _
  simp only [String.toList_append, String.toList_intercalate, hopening, hclosing, hcomma, List.append_assoc,
    List.singleton_append]
  rw [intercalate_behind, List.cons_append]

/-! ### Reading what has been written -/

/-- Text that a value may start with, inside of an array too. -/
def StartsValue (text : List Char) : Prop := ∃ c rest, text = c :: rest ∧ isBlank c = false ∧ c ≠ ']'

theorem StartsValue.append {text : List Char} (h : StartsValue text) (rest : List Char) :
    StartsValue (text ++ rest) := by
  obtain ⟨c, text, rfl, hblank, hclose⟩ := h
  exact ⟨c, text ++ rest, rfl, hblank, hclose⟩

theorem startsValue_signed (figure : Figure) (negative : Bool) : StartsValue (figure.signed negative) := by
  cases negative with
  | true => exact ⟨'-', figure.text, rfl, rfl, by decide⟩
  | false =>
      obtain ⟨c, rest, htext, hc⟩ := figure.exists_text_eq_cons
      refine ⟨c, rest, htext, Bool.eq_false_iff.mpr fun hblank => ?_, ?_⟩
      · rw [isDigit_of_isBlank hblank] at hc
        cases hc
      · rintro rfl
        cases hc

theorem toList_enclose_nil (spacing : Spacing) (depth : Nat) (opening closing : String) :
    (spacing.enclose depth opening closing []).toList = opening.toList ++ closing.toList := by
  rw [Spacing.enclose, String.toList_append]

theorem exists_quote_eq_cons (text : String) : ∃ body, (quote text).toList = '"' :: body := by
  obtain ⟨body, hbody, -⟩ := stringBody_quote text []
  exact ⟨body, hbody⟩

theorem floatText_of_infinite {x : Float} (h : x.isFinite = false) : floatText x = "null" := by
  rw [floatText, if_neg (by simp [h])]

theorem startsValue_floatText (x : Float) : StartsValue (floatText x).toList := by
  cases hfinite : x.isFinite with
  | true =>
      obtain ⟨figure, negative, htext⟩ := exists_figure_floatText hfinite
      rw [htext]
      exact startsValue_signed figure negative
  | false =>
      rw [floatText_of_infinite hfinite]
      exact ⟨'n', ['u', 'l', 'l'], rfl, rfl, by decide⟩

theorem startsValue_write (spacing : Spacing) (depth : Nat) (json : Json) :
    StartsValue (spacing.write depth json).toList := by
  have hmarks : "[".toList = ['['] ∧ "]".toList = [']'] ∧ "\x7b".toList = ['\x7b'] ∧ "\x7d".toList = ['\x7d'] :=
    ⟨rfl, rfl, rfl, rfl⟩
  cases json with
  | null | unreadable =>
      rw [Spacing.write]
      exact ⟨'n', ['u', 'l', 'l'], rfl, rfl, by decide⟩
  | bool value =>
      rw [Spacing.write]
      cases value with
      | true => exact ⟨'t', ['r', 'u', 'e'], rfl, rfl, by decide⟩
      | false => exact ⟨'f', ['a', 'l', 's', 'e'], rfl, rfl, by decide⟩
  | int value =>
      rw [Spacing.write, toList_toString_int]
      exact startsValue_signed _ _
  | float value =>
      rw [Spacing.write]
      exact startsValue_floatText value
  | string value =>
      obtain ⟨body, hbody⟩ := exists_quote_eq_cons value
      rw [Spacing.write, hbody]
      exact ⟨'"', body, rfl, rfl, by decide⟩
  | array found =>
      rw [Spacing.write]
      cases spacing.writeElements (depth + 1) found with
      | nil =>
          rw [toList_enclose_nil, hmarks.1]
          exact ⟨'[', _, rfl, rfl, by decide⟩
      | cons part parts =>
          rw [toList_enclose spacing depth hmarks.1 hmarks.2.1]
          exact ⟨'[', _, rfl, rfl, by decide⟩
  | object found =>
      rw [Spacing.write]
      cases spacing.writeMembers (depth + 1) found with
      | nil =>
          rw [toList_enclose_nil, hmarks.2.2.1]
          exact ⟨'\x7b', _, rfl, rfl, by decide⟩
      | cons part parts =>
          rw [toList_enclose spacing depth hmarks.2.2.1 hmarks.2.2.2]
          exact ⟨'\x7b', _, rfl, rfl, by decide⟩

/-- Words are read back, whatever stands behind them. -/
theorem value_words (fuel : Nat) (rest : List Char) :
    value (fuel + 1) ("null".toList ++ rest) = some (.null, rest) ∧
      value (fuel + 1) ("true".toList ++ rest) = some (.bool true, rest) ∧
      value (fuel + 1) ("false".toList ++ rest) = some (.bool false, rest) := by
  refine ⟨?_, ?_, ?_⟩
  all_goals
    unfold value
    rfl

theorem value_floatText (x : Float) (fuel : Nat) {rest : List Char} (hrest : EndsNumber rest) :
    value (fuel + 1) ((floatText x).toList ++ rest) = some (keptFloat x, rest) := by
  have hkept : ∀ {text : List Char} {found : Json}, (floatText x).toList = text → StartsValue text →
      value (text.length + 1) text = some (found, []) → keptFloat x = found := by
    intro text found htext hstarts hvalue
    obtain ⟨c, behind, rfl, hblank, -⟩ := hstarts
    have hparse : parse? (floatText x) = some found := by
      rw [← String.ofList_toList (s := floatText x), htext, parse?_ofList, skipBlanks_cons hblank]
      exact ⟨[], hvalue, rfl⟩
    rw [keptFloat, hparse, Option.getD_some]
  cases hfinite : x.isFinite with
  | true =>
      obtain ⟨figure, negative, htext⟩ := exists_figure_floatText hfinite
      have hvalue := value_figure figure negative (figure.signed negative).length endsNumber_nil
      rw [List.append_nil] at hvalue
      rw [hkept htext (startsValue_signed figure negative) hvalue, htext]
      exact value_figure figure negative fuel hrest
  | false =>
      have htext := congrArg String.toList (floatText_of_infinite hfinite)
      have hvalue := (value_words "null".toList.length []).1
      rw [List.append_nil] at hvalue
      rw [hkept htext ⟨'n', ['u', 'l', 'l'], rfl, rfl, by decide⟩ hvalue, htext]
      exact (value_words fuel rest).1

section

variable {fuel : Nat} {text blanks more rest : List Char}

theorem StartsValue.skipBlanks (h : StartsValue more) (hblanks : ∀ d ∈ blanks, isBlank d = true) :
    skipBlanks (blanks ++ more) = more := by
  obtain ⟨c, behind, rfl, hblank, -⟩ := h
  exact skipBlanks_append hblanks hblank

theorem elements_last {head : Json} (hvalue : value fuel text = some (head, blanks ++ ']' :: rest))
    (hblanks : ∀ d ∈ blanks, isBlank d = true) : elements (fuel + 1) text = some ([head], rest) := by
  unfold elements
  refine Option.bind_eq_some_iff.mpr ⟨_, hvalue, ?_⟩
  dsimp only
  rw [skipBlanks_append hblanks rfl]
  rfl

theorem elements_more {head : Json} {tail : List Json} {behind : List Char}
    (hvalue : value fuel text = some (head, behind)) (hcomma : skipBlanks behind = ',' :: (blanks ++ more))
    (hmore : skipBlanks (blanks ++ more) = more) (htail : elements fuel more = some (tail, rest)) :
    elements (fuel + 1) text = some (head :: tail, rest) := by
  unfold elements
  refine Option.bind_eq_some_iff.mpr ⟨_, hvalue, ?_⟩
  dsimp only
  rw [hcomma]
  refine Option.bind_eq_some_iff.mpr ⟨(tail, rest), ?_, rfl⟩
  rw [hmore, htail]

variable {name : Option String} {head : Json} {body between after : List Char}

/-- A member: its name, a colon, and its value with what follows that. -/
theorem members_of_name (hname : stringBody body = some (name, between)) (hcolon : skipBlanks between = ':' :: after)
    (hvalue : value fuel (skipBlanks after) = some (head, more)) {found : List (Option String × Json)}
    (hmore : (match skipBlanks more with
      | ',' :: rest => do
        let (tail, rest) ← members fuel (skipBlanks rest)
        return ((name, head) :: tail, rest)
      | '\x7d' :: rest => return ([(name, head)], rest)
      | _ => none) = some (found, rest)) : members (fuel + 1) ('"' :: body) = some (found, rest) := by
  unfold members
  refine Option.bind_eq_some_iff.mpr ⟨_, hname, ?_⟩
  dsimp only
  rw [hcolon]
  exact Option.bind_eq_some_iff.mpr ⟨_, hvalue, hmore⟩

theorem members_last (hname : stringBody body = some (name, between)) (hcolon : skipBlanks between = ':' :: after)
    (hvalue : value fuel (skipBlanks after) = some (head, blanks ++ '\x7d' :: rest))
    (hblanks : ∀ d ∈ blanks, isBlank d = true) : members (fuel + 1) ('"' :: body) = some ([(name, head)], rest) := by
  refine members_of_name hname hcolon hvalue ?_
  rw [skipBlanks_append hblanks rfl]
  rfl

theorem members_more {tail : List (Option String × Json)} {behind : List Char}
    (hname : stringBody body = some (name, between)) (hcolon : skipBlanks between = ':' :: after)
    (hvalue : value fuel (skipBlanks after) = some (head, behind))
    (hcomma : skipBlanks behind = ',' :: (blanks ++ more)) (hmore : skipBlanks (blanks ++ more) = more)
    (htail : members fuel more = some (tail, rest)) :
    members (fuel + 1) ('"' :: body) = some ((name, head) :: tail, rest) := by
  refine members_of_name hname hcolon hvalue ?_
  rw [hcomma]
  refine Option.bind_eq_some_iff.mpr ⟨(tail, rest), ?_, rfl⟩
  rw [hmore, htail]

theorem value_bracket (fuel : Nat) (text : List Char) :
    value (fuel + 1) ('[' :: text) = match Json.skipBlanks text with
      | ']' :: rest => some (.array [], rest)
      | rest => (elements fuel rest).map fun (found, rest) => (.array found, rest) := rfl

theorem value_array {found : List Json} {more : List Char} (hskip : Json.skipBlanks text = more)
    (hstarts : StartsValue more) (helements : elements fuel more = some (found, rest)) :
    value (fuel + 1) ('[' :: text) = some (.array found, rest) := by
  obtain ⟨c, behind, rfl, -, hclose⟩ := hstarts
  rw [value_bracket, hskip]
  split
  · rename_i heq
    exact absurd (List.cons.inj heq).1 hclose
  · rw [helements]
    rfl

theorem value_object {found : List (Option String × Json)} {body : List Char}
    (hskip : Json.skipBlanks text = '"' :: body) (hmembers : members fuel ('"' :: body) = some (found, rest)) :
    value (fuel + 1) ('\x7b' :: text) = some (ofMembers found, rest) := by
  rw [value_open, hskip]
  change (members fuel ('"' :: body)).map _ = _
  rw [hmembers]
  rfl

end

theorem endsNumber_behind {spacing : Spacing} (hspacing : spacing.IsPassedOver) (depth : Nat) {closing : Char}
    (hclosing : closing = ']' ∨ closing = '\x7d') (parts : List String) (rest : List Char) :
    EndsNumber (spacing.behind depth closing parts ++ rest) := by
  cases parts with
  | nil =>
      rw [Spacing.behind, List.append_assoc, List.singleton_append]
      refine endsNumber_blanks (hspacing.newline depth) ?_
      rcases hclosing with rfl | rfl
      · exact endsNumber_cons rfl (by decide) (by decide) rest
      · exact endsNumber_cons rfl (by decide) (by decide) rest
  | cons part parts => exact endsNumber_cons rfl (by decide) (by decide) _

theorem ofMembers_map (found : List (String × Json)) :
    ofMembers (found.map fun member => (some member.1, member.2)) = .object found := by
  have hmembers : (found.map fun member => (some member.1, member.2)).mapM
      (fun member : Option String × Json => member.1.map (·, member.2)) = some found := by
    induction found with
    | nil => rfl
    | cons member found ih =>
        rw [List.map_cons, List.mapM_cons, ih]
        rfl
  unfold ofMembers
  split
  · rename_i members heq
    rw [Option.some.inj (heq.symm.trans hmembers)]
  · rename_i heq
    cases heq.symm.trans hmembers

variable {spacing : Spacing}

/-- A member as it is written: its name in quotes, a colon, and what is written for its value. -/
-- Irreducible, so that matching on texts with a member in them does not unfold the quoting of its name.
@[irreducible] def Spacing.member (spacing : Spacing) (name text : String) : String :=
  quote name ++ ":" ++ spacing.afterColon ++ text

theorem exists_member_body (spacing : Spacing) (name text : String) (rest : List Char) :
    ∃ body, (spacing.member name text).toList ++ rest = '"' :: body ∧
      stringBody body = some (some name, ':' :: (spacing.afterColon.toList ++ (text.toList ++ rest))) := by
  have hcolon : ":".toList = [':'] := rfl
  unfold Spacing.member
  obtain ⟨body, hquote, hbody⟩ :=
    stringBody_quote name (':' :: (spacing.afterColon.toList ++ (text.toList ++ rest)))
  refine ⟨body ++ ':' :: (spacing.afterColon.toList ++ (text.toList ++ rest)), ?_, hbody⟩
  simp only [String.toList_append, hquote, hcolon, List.append_assoc, List.cons_append, List.nil_append]

theorem length_member (spacing : Spacing) (name text : String) :
    text.toList.length < (spacing.member name text).toList.length := by
  obtain ⟨body, hquote⟩ := exists_quote_eq_cons name
  unfold Spacing.member
  simp only [String.toList_append, hquote, List.length_append, List.length_cons]
  omega

theorem toList_write_array (spacing : Spacing) (depth : Nat) (head : Json) (tail : List Json) :
    (spacing.write depth (.array (head :: tail))).toList =
      '[' :: ((spacing.newline (depth + 1)).toList ++ ((spacing.write (depth + 1) head).toList ++
        spacing.behind depth ']' (spacing.writeElements (depth + 1) tail))) := by
  rw [Spacing.write, Spacing.writeElements]
  exact toList_enclose spacing depth rfl rfl _ _

theorem toList_write_object (spacing : Spacing) (depth : Nat) (name : String) (head : Json)
    (tail : List (String × Json)) :
    (spacing.write depth (.object ((name, head) :: tail))).toList =
      '\x7b' :: ((spacing.newline (depth + 1)).toList ++
        ((spacing.member name (spacing.write (depth + 1) head)).toList ++
          spacing.behind depth '\x7d' (spacing.writeMembers (depth + 1) tail))) := by
  rw [Spacing.write, Spacing.writeMembers, ← Spacing.member]
  exact toList_enclose spacing depth rfl rfl _ _

mutual

theorem value_write (hspacing : spacing.IsPassedOver) :
    ∀ (json : Json) (depth fuel : Nat) (rest : List Char), (spacing.write depth json).toList.length ≤ fuel →
      EndsNumber rest → value fuel ((spacing.write depth json).toList ++ rest) = some (kept json, rest)
  | json, depth, 0, rest, hfuel, _ => by
      obtain ⟨c, text, htext, -⟩ := startsValue_write spacing depth json
      rw [htext] at hfuel
      cases hfuel
  | .null, _, fuel + 1, rest, _, _ => by
      rw [Spacing.write]
      exact (value_words fuel rest).1
  | .unreadable, _, fuel + 1, rest, _, _ => by
      rw [Spacing.write]
      exact (value_words fuel rest).1
  | .bool true, _, fuel + 1, rest, _, _ => by
      rw [Spacing.write]
      exact (value_words fuel rest).2.1
  | .bool false, _, fuel + 1, rest, _, _ => by
      rw [Spacing.write]
      exact (value_words fuel rest).2.2
  | .int n, _, fuel + 1, rest, _, hrest => by
      rw [Spacing.write, toList_toString_int]
      exact value_figure _ _ fuel hrest
  | .float x, _, fuel + 1, rest, _, hrest => by
      rw [Spacing.write]
      exact value_floatText x fuel hrest
  | .string text, _, fuel + 1, rest, _, _ => by
      obtain ⟨body, hquote, hbody⟩ := stringBody_quote text rest
      rw [Spacing.write, hquote, List.cons_append, value, hbody]
      rfl
  | .array [], depth, fuel + 1, rest, _, _ => by
      rw [Spacing.write, Spacing.writeElements, toList_enclose_nil]
      rfl
  | .array (head :: tail), depth, fuel + 1, rest, hfuel, _ => by
      rw [toList_write_array] at hfuel ⊢
      rw [List.length_cons, List.length_append] at hfuel
      have hstarts := ((startsValue_write spacing (depth + 1) head).append
        (spacing.behind depth ']' (spacing.writeElements (depth + 1) tail))).append rest
      have helements := elements_write hspacing head tail depth fuel rest (by omega)
      rw [List.cons_append, List.append_assoc]
      exact value_array (hstarts.skipBlanks (hspacing.newline (depth + 1))) hstarts helements
  | .object [], depth, fuel + 1, rest, _, _ => by
      rw [Spacing.write, Spacing.writeMembers, toList_enclose_nil]
      rfl
  | .object ((name, head) :: tail), depth, fuel + 1, rest, hfuel, _ => by
      rw [toList_write_object] at hfuel ⊢
      rw [List.length_cons, List.length_append] at hfuel
      have hmembers := members_write hspacing name head tail depth fuel rest (by omega)
      obtain ⟨body, hbody, -⟩ := exists_member_body spacing name (spacing.write (depth + 1) head)
        (spacing.behind depth '\x7d' (spacing.writeMembers (depth + 1) tail) ++ rest)
      rw [List.append_assoc, hbody] at hmembers
      rw [List.cons_append, List.append_assoc, List.append_assoc, hbody]
      rw [value_object (skipBlanks_append (hspacing.newline (depth + 1)) rfl) hmembers, ofMembers_map]
      rfl

theorem elements_write (hspacing : spacing.IsPassedOver) :
    ∀ (head : Json) (tail : List Json) (depth fuel : Nat) (rest : List Char),
      ((spacing.write (depth + 1) head).toList ++
        spacing.behind depth ']' (spacing.writeElements (depth + 1) tail)).length ≤ fuel →
      elements fuel ((spacing.write (depth + 1) head).toList ++
        spacing.behind depth ']' (spacing.writeElements (depth + 1) tail) ++ rest) =
          some (kept head :: keptElements tail, rest)
  | head, tail, depth, 0, rest, hfuel => by
      obtain ⟨c, text, htext, -⟩ := startsValue_write spacing (depth + 1) head
      rw [htext] at hfuel
      cases hfuel
  | head, [], depth, fuel + 1, rest, hfuel => by
      have hends := endsNumber_behind hspacing depth (.inl rfl) [] rest
      rw [Spacing.writeElements, Spacing.behind] at *
      have hvalue := value_write hspacing head (depth + 1) fuel _ (by
        simp only [List.length_append, List.length_singleton] at hfuel
        omega) hends
      rw [List.append_assoc] at hvalue
      rw [List.append_assoc, List.append_assoc]
      exact elements_last hvalue (hspacing.newline depth)
  | head, next :: tail, depth, fuel + 1, rest, hfuel => by
      have hends := endsNumber_behind hspacing depth (.inl rfl) (spacing.writeElements (depth + 1) (next :: tail)) rest
      rw [Spacing.writeElements, Spacing.behind] at *
      simp only [List.length_append, List.length_cons] at hfuel
      have hvalue := value_write hspacing head (depth + 1) fuel _ (by omega) hends
      have htail := elements_write hspacing next tail depth fuel rest (by
        rw [List.length_append]
        omega)
      have hstarts := ((startsValue_write spacing (depth + 1) next).append
        (spacing.behind depth ']' (spacing.writeElements (depth + 1) tail))).append rest
      rw [List.cons_append, List.append_assoc] at hvalue
      rw [List.append_assoc, List.cons_append, List.append_assoc]
      exact elements_more hvalue (skipBlanks_cons rfl) (hstarts.skipBlanks (hspacing.newline (depth + 1))) htail

theorem members_write (hspacing : spacing.IsPassedOver) :
    ∀ (name : String) (head : Json) (tail : List (String × Json)) (depth fuel : Nat) (rest : List Char),
      ((spacing.member name (spacing.write (depth + 1) head)).toList ++
        spacing.behind depth '\x7d' (spacing.writeMembers (depth + 1) tail)).length ≤ fuel →
      members fuel ((spacing.member name (spacing.write (depth + 1) head)).toList ++
        spacing.behind depth '\x7d' (spacing.writeMembers (depth + 1) tail) ++ rest) =
          some ((keptMembers ((name, head) :: tail)).map fun member => (some member.1, member.2), rest)
  | name, head, tail, depth, 0, rest, hfuel => by
      obtain ⟨body, hbody, -⟩ := exists_member_body spacing name (spacing.write (depth + 1) head)
        (spacing.behind depth '\x7d' (spacing.writeMembers (depth + 1) tail))
      rw [hbody] at hfuel
      cases hfuel
  | name, head, [], depth, fuel + 1, rest, hfuel => by
      have hends := endsNumber_behind hspacing depth (.inr rfl) [] rest
      have hstarts := startsValue_write spacing (depth + 1) head
      have hlength := length_member spacing name (spacing.write (depth + 1) head)
      rw [Spacing.writeMembers] at *
      rw [List.length_append] at hfuel
      have hvalue := value_write hspacing head (depth + 1) fuel _ (by omega) hends
      obtain ⟨body, hbody, hname⟩ := exists_member_body spacing name (spacing.write (depth + 1) head)
        (spacing.behind depth '\x7d' [] ++ rest)
      rw [← (hstarts.append _).skipBlanks hspacing.afterColon, Spacing.behind, List.append_assoc] at hvalue
      rw [List.append_assoc, hbody]
      rw [Spacing.behind, List.append_assoc] at hname
      exact members_last hname (skipBlanks_cons rfl) hvalue (hspacing.newline depth)
  | name, head, (next, value) :: tail, depth, fuel + 1, rest, hfuel => by
      have hends := endsNumber_behind hspacing depth (.inr rfl)
        (spacing.writeMembers (depth + 1) ((next, value) :: tail)) rest
      have hstarts := startsValue_write spacing (depth + 1) head
      have hlength := length_member spacing name (spacing.write (depth + 1) head)
      rw [Spacing.writeMembers, ← Spacing.member] at *
      rw [List.length_append, Spacing.behind, List.length_cons, List.length_append] at hfuel
      have hvalue := value_write hspacing head (depth + 1) fuel _ (by omega) hends
      have htail := members_write hspacing next value tail depth fuel rest (by omega)
      obtain ⟨body, hbody, hname⟩ := exists_member_body spacing name (spacing.write (depth + 1) head)
        (spacing.behind depth '\x7d' (spacing.member next (spacing.write (depth + 1) value) ::
          spacing.writeMembers (depth + 1) tail) ++ rest)
      obtain ⟨body', hbody', -⟩ := exists_member_body spacing next (spacing.write (depth + 1) value)
        (spacing.behind depth '\x7d' (spacing.writeMembers (depth + 1) tail) ++ rest)
      rw [← (hstarts.append _).skipBlanks hspacing.afterColon, Spacing.behind, List.cons_append, List.append_assoc,
        List.append_assoc, hbody'] at hvalue
      rw [List.append_assoc, hbody'] at htail
      rw [List.append_assoc, hbody]
      rw [Spacing.behind, List.cons_append, List.append_assoc, List.append_assoc, hbody'] at hname
      exact members_more hname (skipBlanks_cons rfl) hvalue (skipBlanks_cons rfl)
        (skipBlanks_append (hspacing.newline (depth + 1)) rfl) htail

end

/-- **Written values** are read back. -/
theorem parse?_pretty (json : Json) : parse? json.pretty = some json.kept := by
  have hvalue := value_write isPassedOver_indented json 0 (json.pretty.toList.length + 1) [] (Nat.le_succ _)
    endsNumber_nil
  obtain ⟨c, text, htext, hblank, -⟩ := startsValue_write Spacing.indented 0 json
  rw [← String.ofList_toList (s := json.pretty), parse?_ofList]
  refine ⟨[], ?_, rfl⟩
  rw [List.append_nil] at hvalue
  rw [pretty, htext] at hvalue ⊢
  rw [skipBlanks_cons hblank]
  exact hvalue

end Segue.Json
