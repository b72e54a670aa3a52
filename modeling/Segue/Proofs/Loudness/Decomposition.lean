import Segue.Loudness.Statistics
import Segue.Proofs.Json.Grammar
import Segue.Proofs.Loudness.Noise

/-!
Texts taken apart into characters and whole blocks. Main statement: a text comes apart in one way,
and its last block is the one that the scan finds; an object is one such block, so that it is read
whole behind any text that leaves no block open.
-/

namespace Segue

namespace Block

/-- A block from its opening to its closing brace. -/
def IsBlock (text : List Char) : Prop := ∃ inner, text = '\x7b' :: (inner ++ ['\x7d']) ∧ Inner inner

/-- A part of a text: a character outside of blocks, or a whole block. -/
inductive Part where
  | char (c : Char) (hopen : c ≠ '\x7b')
  | block (text : List Char) (h : IsBlock text)

namespace Part

def text : Part → List Char
  | char c _ => [c]
  | block text _ => text

def block? : Part → Option (List Char)
  | char _ _ => none
  | block text _ => some text

end Part

/-- Nothing, or an opening brace with what follows it when no beginning of that is a block. -/
def IsUnclosed (text : List Char) : Prop :=
  text = [] ∨ text.head? = some '\x7b' ∧ ∀ front, front <+: text → ¬ IsBlock front

/-- A text taken apart, up to a block that it leaves open. -/
@[ext]
structure Decomposition (text : List Char) where
  parts : List Part
  tail : List Char
  text_eq : text = parts.flatMap Part.text ++ tail
  isUnclosed : IsUnclosed tail

def Decomposition.last? {text : List Char} (taken : Decomposition text) : Option (List Char) :=
  taken.parts.reverse.findSome? Part.block?

section

variable {text text' rest rest' : List Char}

theorem StringTail.eq_of_append (h : StringTail text) (h' : StringTail text') (heq : text ++ rest = text' ++ rest') :
    text = text' := by
  induction h generalizing text' with
  | close =>
      cases h' with
      | close => rfl
      | escaped => cases heq
      | char hquote => exact absurd (List.cons.inj heq).1.symm hquote
  | escaped c _ ih =>
      cases h' with
      | close => cases heq
      | escaped d h' =>
          simp only [List.cons_append, List.cons.injEq, true_and] at heq
          obtain ⟨rfl, heq⟩ := heq
          rw [ih h' heq]
      | char _ hescape => exact absurd (List.cons.inj heq).1.symm hescape
  | char hquote hescape _ ih =>
      cases h' with
      | close => exact absurd (List.cons.inj heq).1 hquote
      | escaped => exact absurd (List.cons.inj heq).1 hescape
      | char _ _ h' =>
          simp only [List.cons_append, List.cons.injEq] at heq
          obtain ⟨rfl, heq⟩ := heq
          rw [ih h' heq]

/-- What stands between braces is at an end at the first closing brace that nothing in it opens. -/
theorem Inner.eq_of_append (h : Inner text) (h' : Inner text')
    (heq : text ++ '\x7d' :: rest = text' ++ '\x7d' :: rest') : text = text' := by
  induction h generalizing text' rest rest' with
  | nil =>
      cases h' with
      | nil => rfl
      | char hplain => exact absurd (List.cons.inj heq).1.symm hplain.2.1
      | string | block => cases heq
  | char hplain _ ih =>
      cases h' with
      | nil => exact absurd (List.cons.inj heq).1 hplain.2.1
      | char _ h' =>
          simp only [List.cons_append, List.cons.injEq] at heq
          obtain ⟨rfl, heq⟩ := heq
          rw [ih h' heq]
      | string => exact absurd (List.cons.inj heq).1 hplain.2.2
      | block => exact absurd (List.cons.inj heq).1 hplain.1
  | string htext _ ih =>
      cases h' with
      | nil | block => cases heq
      | char hplain => exact absurd (List.cons.inj heq).1.symm hplain.2.2
      | string htext' h' =>
          simp only [List.cons_append, List.append_assoc, List.cons.injEq, true_and] at heq
          obtain rfl := htext.eq_of_append htext' heq
          rw [ih h' (List.append_cancel_left heq)]
  | block _ _ ihText ih =>
      cases h' with
      | nil | string => cases heq
      | char hplain => exact absurd (List.cons.inj heq).1.symm hplain.1
      | block htext' h' =>
          simp only [List.cons_append, List.append_assoc, List.cons.injEq, true_and] at heq
          obtain rfl := ihText htext' heq
          rw [ih h' (List.cons.inj (List.append_cancel_left heq)).2]

/-- Of two blocks that a text begins with, none goes beyond the other. -/
theorem IsBlock.eq_of_append (h : IsBlock text) (h' : IsBlock text') (heq : text ++ rest = text' ++ rest') :
    text = text' := by
  obtain ⟨inner, rfl, hinner⟩ := h
  obtain ⟨inner', rfl, hinner'⟩ := h'
  simp only [List.cons_append, List.append_assoc, List.nil_append] at heq
  rw [hinner.eq_of_append hinner' (List.cons.inj heq).2]

end

namespace Part

theorem exists_text_eq_cons (part : Part) : ∃ c rest, part.text = c :: rest := by
  cases part with
  | char c => exact ⟨c, [], rfl⟩
  | block text h =>
      obtain ⟨inner, rfl, -⟩ := h
      exact ⟨_, _, rfl⟩

/-- A text begins with one part. -/
theorem eq_of_append {part other : Part} {rest rest' : List Char} (heq : part.text ++ rest = other.text ++ rest') :
    part = other := by
  -- a character is none that a block begins with
  have hdiffer : ∀ {c : Char} {text rest rest' : List Char}, c ≠ '\x7b' → IsBlock text →
      [c] ++ rest ≠ text ++ rest' := by
    rintro c text rest rest' hopen ⟨inner, rfl, -⟩ heq
    exact hopen (List.cons.inj heq).1
  cases part with
  | char c hopen =>
      cases other with
      | char d =>
          obtain rfl := (List.cons.inj heq).1
          rfl
      | block text h => exact (hdiffer hopen h heq).elim
  | block text h =>
      cases other with
      | char d hopen => exact (hdiffer hopen h heq.symm).elim
      | block text' h' =>
          obtain rfl := h.eq_of_append h' heq
          rfl

/-- No part begins what is left open. -/
theorem not_isUnclosed_append (part : Part) (rest : List Char) : ¬ IsUnclosed (part.text ++ rest) := by
  rintro (hnil | ⟨hhead, hfront⟩)
  · obtain ⟨c, behind, htext⟩ := part.exists_text_eq_cons
    rw [htext] at hnil
    cases hnil
  · cases part with
    | char c hopen => exact hopen (Option.some.inj hhead)
    | block text h => exact hfront text (List.prefix_append text rest) h

end Part

theorem parts_unique {parts others : List Part} {tail tail' : List Char} (htail : IsUnclosed tail)
    (htail' : IsUnclosed tail') (heq : parts.flatMap Part.text ++ tail = others.flatMap Part.text ++ tail') :
    parts = others ∧ tail = tail' := by
  induction parts generalizing others with
  | nil =>
      cases others with
      | nil => exact ⟨rfl, heq⟩
      | cons other others =>
          rw [List.flatMap_nil, List.nil_append, List.flatMap_cons, List.append_assoc] at heq
          rw [heq] at htail
          exact absurd htail (other.not_isUnclosed_append _)
  | cons part parts ih =>
      rw [List.flatMap_cons, List.append_assoc] at heq
      cases others with
      | nil =>
          rw [List.flatMap_nil, List.nil_append] at heq
          rw [← heq] at htail'
          exact absurd htail' (part.not_isUnclosed_append _)
      | cons other others =>
          rw [List.flatMap_cons, List.append_assoc] at heq
          obtain rfl := Part.eq_of_append heq
          obtain ⟨rfl, rfl⟩ := ih (List.append_cancel_left heq)
          exact ⟨rfl, rfl⟩

theorem Decomposition.unique {text : List Char} (taken other : Decomposition text) : taken = other := by
  obtain ⟨hparts, htail⟩ :=
    parts_unique taken.isUnclosed other.isUnclosed (taken.text_eq.symm.trans other.text_eq)
  exact Decomposition.ext hparts htail

namespace Decomposition

def cons (part : Part) {text : List Char} (taken : Decomposition text) : Decomposition (part.text ++ text) where
  parts := part :: taken.parts
  tail := taken.tail
  text_eq := by rw [List.flatMap_cons, List.append_assoc, ← taken.text_eq]
  isUnclosed := taken.isUnclosed

def ofUnclosed {text : List Char} (h : IsUnclosed text) : Decomposition text where
  parts := []
  tail := text
  text_eq := rfl
  isUnclosed := h

/-- Every text comes apart: at its beginning stands a character, a block, or a brace that is never
closed. -/
theorem exists_of_text (text : List Char) : Nonempty (Decomposition text) := by
  induction hlength : text.length using Nat.strongRecOn generalizing text with
  | ind length ih =>
      subst hlength
      by_cases hunclosed : IsUnclosed text
      · exact ⟨ofUnclosed hunclosed⟩
      obtain ⟨part, rest, rfl⟩ : ∃ (part : Part) (rest : List Char), text = part.text ++ rest := by
        cases text with
        | nil => exact absurd (.inl rfl) hunclosed
        | cons c text =>
            by_cases hopen : c = '\x7b'
            · subst hopen
              by_contra hnone
              refine hunclosed (.inr ⟨rfl, ?_⟩)
              rintro front ⟨rest, hrest⟩ hblock
              exact hnone ⟨.block front hblock, rest, hrest.symm⟩
            · exact ⟨.char c hopen, text, rfl⟩
      have hlt : rest.length < (part.text ++ rest).length := by
        obtain ⟨c, behind, htext⟩ := part.exists_text_eq_cons
        rw [htext]
        simp
      obtain ⟨taken⟩ := ih rest.length hlt rest rfl
      exact ⟨taken.cons part⟩

end Decomposition

/-! ### What the scan finds -/

namespace Scan

/-- A block is found only where none is open any more. -/
theorem last_step (scan : Scan) (c : Char) : (scan.step c).depth = 0 ∨ (scan.step c).last = scan.last := by
  unfold step
  dsimp only
  repeat' split
  all_goals first | exact .inr rfl | exact .inl rfl

theorem last_run (scan : Scan) (text : List Char) :
    (∃ front, front <+: text ∧ (front.foldl step scan).depth = 0) ∨ (text.foldl step scan).last = scan.last := by
  induction text generalizing scan with
  | nil => exact .inr rfl
  | cons c text ih =>
      rcases scan.last_step c with hdepth | hlast
      · exact .inl ⟨[c], ⟨text, rfl⟩, hdepth⟩
      · rcases ih (scan.step c) with ⟨front, hfront, hdepth⟩ | hrest
        · exact .inl ⟨c :: front, List.cons_prefix_cons.mpr ⟨rfl, hfront⟩, hdepth⟩
        · exact .inr (hrest.trans hlast)

end Scan

variable (last : Option (List Char))

/-- In what is left open nothing is found. -/
theorem scan_unclosed {text : List Char} (h : IsUnclosed text) :
    (text.foldl Scan.step ⟨0, false, false, [], last⟩).last = last := by
  rcases h with rfl | ⟨hhead, hfront⟩
  · rfl
  obtain ⟨text, rfl⟩ := List.head?_eq_some_iff.mp hhead
  rw [List.foldl_cons, step_openOutermost]
  refine (Scan.last_run _ text).resolve_left ?_
  rintro ⟨front, ⟨rest, rfl⟩, hdepth⟩
  -- where the scan is outside of all blocks again, the brace has been closed
  have hleaves : Closes 1 front := (Scan.IsSound.inside 0 ['\x7b'] last).leaves hdepth
  obtain @⟨-, -⟩ | @⟨_, inner, behind, hinner, -⟩ := hleaves
  refine hfront ('\x7b' :: (inner ++ ['\x7d'])) ⟨behind ++ rest, ?_⟩ ⟨inner, rfl, hinner⟩
  simp

theorem scan_parts (parts : List Part) (last : Option (List Char)) :
    (parts.flatMap Part.text).foldl Scan.step ⟨0, false, false, [], last⟩ =
      ⟨0, false, false, [], (parts.reverse.findSome? Part.block?).or last⟩ := by
  induction parts generalizing last with
  | nil => rfl
  | cons part parts ih =>
      rw [List.flatMap_cons, List.foldl_append, List.reverse_cons, List.findSome?_append]
      cases part with
      | char c hopen =>
          have hstep : [c].foldl Scan.step ⟨0, false, false, [], last⟩ = ⟨0, false, false, [], last⟩ :=
            step_outside false [] last hopen
          rw [Part.text, hstep, ih]
          simp [Part.block?]
      | block text h =>
          obtain ⟨inner, htext, hinner⟩ := id h
          have hblock : text.foldl Scan.step ⟨0, false, false, [], last⟩ = ⟨0, false, false, [], some text⟩ := by
            rw [htext, scan_block last hinner]
          rw [Part.text, hblock, ih]
          simp [Part.block?]

theorem Decomposition.last?_eq {text : List Char} (taken : Decomposition text) : Block.last? text = taken.last? := by
  conv_lhs => rw [taken.text_eq]
  unfold Block.last?
  rw [List.foldl_append]
  refine (congrArg (fun scan : Scan => (taken.tail.foldl Scan.step scan).last) (scan_parts taken.parts none)).trans ?_
  rw [scan_unclosed _ taken.isUnclosed, Option.or_none]
  rfl

namespace Decomposition

variable {text rest : List Char}

def append (taken : Decomposition text) (h : taken.tail = []) (other : Decomposition rest) :
    Decomposition (text ++ rest) where
  parts := taken.parts ++ other.parts
  tail := other.tail
  text_eq := by
    conv_lhs => rw [taken.text_eq, other.text_eq]
    rw [h, List.flatMap_append, List.append_nil, List.append_assoc]
  isUnclosed := other.isUnclosed

def ofBlock (h : IsBlock text) : Decomposition text where
  parts := [.block text h]
  tail := []
  text_eq := by simp [Part.text]
  isUnclosed := .inl rfl

/-- Characters without an opening brace among them. -/
theorem exists_of_forall (h : ∀ c ∈ text, c ≠ '\x7b') :
    ∃ taken : Decomposition text, taken.tail = [] ∧ taken.last? = none := by
  induction text with
  | nil => exact ⟨ofUnclosed (.inl rfl), rfl, rfl⟩
  | cons c text ih =>
      obtain ⟨taken, htail, hlast⟩ := ih fun d hd => h d (List.mem_cons_of_mem c hd)
      refine ⟨taken.cons (.char c (h c List.mem_cons_self)), htail, ?_⟩
      have hmore : (taken.cons (.char c (h c List.mem_cons_self))).last? = taken.last?.or none := by
        unfold last? cons
        rw [List.reverse_cons, List.findSome?_append]
        rfl
      exact hmore.trans (by rw [hlast, Option.or_none])

theorem last?_append (taken : Decomposition text) (h : taken.tail = []) (other : Decomposition rest) :
    (taken.append h other).last? = other.last?.or taken.last? := by
  unfold last? append
  rw [List.reverse_append, List.findSome?_append]

end Decomposition

/-- A block is the last one of a text when parts stand before it and no other block behind it. -/
theorem last?_between {front text rest : List Char} (taken : Decomposition front) (hfront : taken.tail = [])
    (htext : IsBlock text) (hrest : ∀ c ∈ rest, c ≠ '\x7b') : last? (front ++ text ++ rest) = some text := by
  obtain ⟨behind, hbehind, hnone⟩ := Decomposition.exists_of_forall hrest
  have hblocks := Decomposition.last?_append (taken.append hfront (.ofBlock htext)) rfl behind
  rw [Decomposition.last?_append, hnone, Option.none_or] at hblocks
  exact (Decomposition.last?_eq _).trans hblocks

end Block

/-- An object is one block. -/
theorem Json.IsObject.isBlock {text : List Char} {found : Json} (h : IsObject text found) : Block.IsBlock text := by
  obtain ⟨hvalue, hhead⟩ := h
  obtain ⟨tail, rfl⟩ := List.head?_eq_some_iff.mp hhead
  have hread := hvalue.value_append (Nat.le_succ _) endsNumber_nil
  rw [List.append_nil] at hread
  obtain ⟨inner, rfl, hinner⟩ := (extents _).object hread
  exact ⟨inner, rfl, hinner⟩

namespace Measurement

open Json (IsObject)

/-- What the members of an object say. -/
def ofMembers (members : List (String × Json)) : Except StatisticsError (Measurement Float) := do
  return {
    integrated := ← statistic members "input_i"
    truePeak := ← statistic members "input_tp"
    range := ← statistic members "input_lra"
    threshold := ← statistic members "input_thresh" }

/-- What an object says, when it can be read throughout. -/
def ofObject : Json → Except StatisticsError (Measurement Float)
  | .object members =>
    if Json.isReadable (.object members) ∧ Json.nesting (.object members) ≤ maxNesting then ofMembers members
    else .error .malformed
  | _ => .error .malformed

theorem ofOutput_of_isObject {output text : List Char} {found : Json} (hlast : Block.last? output = some text)
    (h : IsObject text found) : ofOutput output = ofObject found := by
  rw [ofOutput, hlast]
  dsimp only
  cases found with
  | object members =>
      have hread : members? text = if Json.isReadable (.object members) ∧ Json.nesting (.object members) ≤ maxNesting
          then some members else none := by
        rw [members?, h.isValue.parse?]
      rw [hread, ofObject]
      by_cases hreadable : Json.isReadable (.object members) ∧ Json.nesting (.object members) ≤ maxNesting
      · rw [if_pos hreadable, if_pos hreadable]
        rfl
      · rw [if_neg hreadable, if_neg hreadable]
  | _ =>
      rw [members?, h.isValue.parse?]
      rfl

/-- An object with one digit under some name that needs no escape, up to the mark behind it. -/
def digitMember (name : String) (mark : Char) : List Char := '"' :: (name.toList ++ ['"', ':', '1', mark])

theorem isString_plain {name : List Char} (h : ∀ c ∈ name, c ≠ '"' ∧ c ≠ '\\' ∧ ¬ c.toNat < 0x20) :
    Json.IsString (name ++ ['"']) (name.map .char) ∧ Json.charsOfPieces (name.map .char) = some name := by
  induction name with
  | nil => exact ⟨.close, rfl⟩
  | cons c name ih =>
      obtain ⟨hquote, hescape, hcontrol⟩ := h c List.mem_cons_self
      obtain ⟨hstring, hchars⟩ := ih fun d hd => h d (List.mem_cons_of_mem c hd)
      refine ⟨.char hquote hescape hcontrol hstring, ?_⟩
      rw [List.map_cons, Json.charsOfPieces, hchars, Option.map_some]

theorem areBlanks_nil : Json.AreBlanks [] := by simp [Json.AreBlanks]

theorem isValue_one : Json.IsValue ['1'] (.int 1) := by
  have hdigits : Json.AreDigits ['1'] := ⟨by simp, by simp⟩
  have hnumber := @Json.IsNumber.parts false _ _ none _ (.digits (by decide) hdigits) nofun .none
  exact .number hnumber

theorem areMembers_last {name : String} (h : ∀ c ∈ name.toList, c ≠ '"' ∧ c ≠ '\\' ∧ ¬ c.toNat < 0x20) :
    Json.AreMembers (digitMember name '\x7d') [(some name, .int 1)] := by
  obtain ⟨hstring, hchars⟩ := isString_plain h
  have hmember := Json.AreMembers.last hstring areBlanks_nil areBlanks_nil isValue_one areBlanks_nil
  rw [Json.textOf?, hchars, Option.map_some, String.ofList_toList] at hmember
  simpa [digitMember] using hmember

theorem areMembers_more {name : String} (h : ∀ c ∈ name.toList, c ≠ '"' ∧ c ≠ '\\' ∧ ¬ c.toNat < 0x20)
    {rest : List Char} {tail : List (Option String × Json)} (hrest : Json.AreMembers rest tail) :
    Json.AreMembers (digitMember name ',' ++ rest) ((some name, .int 1) :: tail) := by
  obtain ⟨hstring, hchars⟩ := isString_plain h
  have hmember :=
    Json.AreMembers.more hstring areBlanks_nil areBlanks_nil isValue_one areBlanks_nil areBlanks_nil hrest
  rw [Json.textOf?, hchars, Option.map_some, String.ofList_toList] at hmember
  simpa [digitMember] using hmember

/-- Statistics behind a member whose name has braces and a quote in it, and whose value is an object
without members. -/
def quotedText : List Char :=
  '\x7b' :: (['"', '\x7d', '\\', '"', '\x7b', '"', ':', '\x7b', '\x7d', ','] ++
    (digitMember "input_i" ',' ++ (digitMember "input_tp" ',' ++ (digitMember "input_lra" ',' ++
      digitMember "input_thresh" '\x7d'))))

theorem isObject_quotedText : IsObject quotedText (.object (("\x7d\"\x7b", .object []) :: digitMembers 1)) := by
  have hthreshold := @areMembers_last "input_thresh" (by simp)
  have hrange := @areMembers_more "input_lra" (by simp) _ _ hthreshold
  have hpeak := @areMembers_more "input_tp" (by simp) _ _ hrange
  have hstatistics := @areMembers_more "input_i" (by simp) _ _ hpeak
  have hname : Json.IsString ['\x7d', '\\', '"', '\x7b', '"'] [.char '\x7d', .char '"', .char '\x7b'] :=
    .char (by decide) (by decide) (by decide) (.escaped rfl (.char (by decide) (by decide) (by decide) .close))
  have hempty : Json.IsValue ['\x7b', '\x7d'] (.object []) := .emptyObject areBlanks_nil
  exact ⟨.object areBlanks_nil (.more hname areBlanks_nil areBlanks_nil hempty areBlanks_nil areBlanks_nil hstatistics),
    rfl⟩

/-- A block with a brace in a string, between a stray brace and a stray quote. -/
def strayText : List Char := '\x7d' :: (['\x7b', 'n', '"', '\x7d', '"', '\x7d'] ++ ['"'])

theorem isBlock_brace : Block.IsBlock ['\x7b', 'n', '"', '\x7d', '"', '\x7d'] :=
  ⟨['n', '"', '\x7d', '"'], rfl, .char (by decide) (.string (.char (by decide) (by decide) .close) .nil)⟩

def strayParts : Block.Decomposition strayText :=
  let quote := Block.Decomposition.ofUnclosed (.inl rfl) |>.cons (.char '"' (by decide))
  quote.cons (.block _ isBlock_brace) |>.cons (.char '\x7d' (by decide))

end Measurement

end Segue
