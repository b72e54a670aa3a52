import Mathlib
import Segue.Mixing.MixGraph

/-!
The labels of a mix. Every link has a structured name, and its label is that name written out. Main
statements: distinct links have distinct labels, no link is taken for an engine input, and an engine
input is read back as its index.
-/

namespace Segue

theorem toList_toString (n : Nat) : (toString n).toList = Nat.toDigits 10 n := by
  rw [Nat.toString_eq_ofList_toDigits, String.toList_ofList]

theorem toDigits_ten_injective {m n : Nat} (h : Nat.toDigits 10 m = Nat.toDigits 10 n) : m = n := by
  rw [← Nat.ofDigitChars_ten_toDigits (n := m), h, Nat.ofDigitChars_ten_toDigits]

theorem isDigit_of_mem_toDigits_ten {n : Nat} {c : Char} (h : c ∈ Nat.toDigits 10 n) : c.isDigit = true :=
  Nat.isDigit_of_mem_toDigits (by decide) (by decide) h

theorem colon_not_mem_toDigits (n : Nat) : ':' ∉ Nat.toDigits 10 n := by
  intro h
  exact absurd (isDigit_of_mem_toDigits_ten h) (by decide)

/-- Digits end where something else begins. -/
theorem digits_append_injective {m n : Nat} {c : Char} (hc : c.isDigit = false) {rest rest' : List Char}
    (h : Nat.toDigits 10 m ++ c :: rest = Nat.toDigits 10 n ++ c :: rest') : m = n ∧ rest = rest' := by
  have hdigits : ∀ (k : Nat) (tail : List Char),
      (Nat.toDigits 10 k ++ c :: tail).takeWhile Char.isDigit = Nat.toDigits 10 k := by
    intro k tail
    rw [List.takeWhile_append_of_pos fun d hd => isDigit_of_mem_toDigits_ten hd,
      List.takeWhile_cons_of_neg (by simp [hc]), List.append_nil]
  have hm := hdigits m rest
  rw [h, hdigits n rest'] at hm
  have hmn := toDigits_ten_injective hm
  subst hmn
  exact ⟨rfl, by simpa using h⟩

namespace Pad

theorem digitsValue_toDigits (n : Nat) : Numeral.digitsValue (Nat.toDigits 10 n) = n := by
  rw [Numeral.digitsValue, ← Nat.ofDigitChars_eq_foldl, Nat.ofDigitChars_ten_toDigits]

theorem natBelow?_toString (bound n : Nat) :
    Numeral.natBelow? bound (toString n) = if n < bound then some n else none := by
  have hall : (Nat.toDigits 10 n).all Char.isDigit = true :=
    List.all_eq_true.mpr fun _ hc => isDigit_of_mem_toDigits_ten hc
  have hplus : ∀ rest, Nat.toDigits 10 n ≠ '+' :: rest := by
    intro rest heq
    have hdigit : '+'.isDigit = true := isDigit_of_mem_toDigits_ten (n := n) (by simp [heq])
    exact absurd hdigit (by decide)
  rw [Numeral.natBelow?, toList_toString]
  split
  · exact absurd ‹_› (hplus _)
  · rw [if_pos ⟨Nat.toDigits_ne_nil, hall⟩, digitsValue_toDigits]

theorem inputIndex?_input_eq (index : Nat) :
    (input index).inputIndex? = if index < 2 ^ 64 then some index else none := by
  have hlabel : (input index).label.toList.reverse =
      'a' :: ':' :: (Nat.toDigits 10 index).reverse := by
    rw [input, String.toList_append, toList_toString, List.reverse_append]
    rfl
  rw [inputIndex?, hlabel]
  show Numeral.natBelow? (2 ^ 64) (String.ofList (Nat.toDigits 10 index).reverse.reverse) = _
  rw [List.reverse_reverse, ← Nat.toString_eq_ofList_toDigits, natBelow?_toString]

/-- An engine input is read back as its index, as long as the index has 64 bits. -/
theorem inputIndex?_input {index : Nat} (h : index < 2 ^ 64) : (input index).inputIndex? = some index := by
  rw [inputIndex?_input_eq, if_pos h]

/-- An engine input is read back as no other one. -/
theorem eq_of_inputIndex?_input {index found : Nat} (h : (input index).inputIndex? = some found) : found = index := by
  rw [inputIndex?_input_eq] at h
  split at h
  · exact (Option.some.inj h).symm
  · cases h

/-- A label without a colon names no engine input. -/
theorem inputIndex?_eq_none {pad : Pad} (h : ':' ∉ pad.label.toList) : pad.inputIndex? = none := by
  rw [inputIndex?]
  split
  · rename_i index heq
    have hmem : ':' ∈ pad.label.toList.reverse := by simp [heq]
    exact absurd (List.mem_reverse.mp hmem) h
  · rfl

end Pad

/-- What a link inside the chain of a track carries. -/
inductive Part where
  | cut
  | tempo
  | volume
  | branch (purpose : Chain.Purpose) (piece : Nat)
  | segment (purpose : Chain.Purpose) (piece : Nat)
  deriving DecidableEq

namespace Part

def name : Part → String
  | cut => "cut"
  | tempo => "tempo"
  | volume => "vol"
  | branch purpose piece => purpose.tag ++ "src" ++ toString piece
  | segment purpose piece => purpose.tag ++ "seg" ++ toString piece

theorem name_injective {a b : Part} (h : a.name = b.name) : a = b := by
  have hlist : a.name.toList = b.name.toList := by rw [h]
  rcases a with _ | _ | _ | ⟨_ | _, piece⟩ | ⟨_ | _, piece⟩ <;>
    rcases b with _ | _ | _ | ⟨_ | _, piece'⟩ | ⟨_ | _, piece'⟩ <;>
    simp [name, Chain.Purpose.tag] at hlist ⊢
  all_goals exact toDigits_ten_injective hlist

theorem colon_not_mem_name (part : Part) : ':' ∉ part.name.toList := by
  rcases part with _ | _ | _ | ⟨_ | _, piece⟩ | ⟨_ | _, piece⟩ <;>
    simp [name, Chain.Purpose.tag, colon_not_mem_toDigits]

end Part

inductive Link where
  | inside (track : Nat) (part : Part)
  /-- What the chain of a track gives. -/
  | chain (track : Nat)
  /-- What a transition gives that is not the last one. -/
  | fold (number : Nat)
  | final
  deriving DecidableEq

namespace Link

def pad : Link → Pad
  | inside track part => Chain.link track part.name
  | chain track => Chain.outputPad track
  | fold number => MixGraph.foldPad number
  | final => MixGraph.finalPad

def spelling : Link → List Char
  | inside track part => 't' :: (Nat.toDigits 10 track ++ '_' :: part.name.toList)
  | chain track => 'a' :: Nat.toDigits 10 track
  | fold number => 'x' :: Nat.toDigits 10 number
  | final => ['o', 'u', 't']

theorem toList_label (link : Link) : link.pad.label.toList = link.spelling := by
  cases link <;> simp [pad, spelling, Chain.link, Chain.outputPad, MixGraph.foldPad, MixGraph.finalPad]

/-- Distinct links have distinct labels. -/
theorem pad_injective {a b : Link} (h : a.pad = b.pad) : a = b := by
  have hspelling : a.spelling = b.spelling := by rw [← toList_label, h, toList_label]
  cases a <;> cases b <;> simp only [spelling, List.cons.injEq, Char.reduceEq, true_and, false_and] at hspelling
  case inside.inside =>
    obtain ⟨htrack, hname⟩ := digits_append_injective (by decide) hspelling
    rw [htrack, Part.name_injective (String.toList_injective hname)]
  case chain.chain => rw [toDigits_ten_injective hspelling]
  case fold.fold => rw [toDigits_ten_injective hspelling]
  case final.final => rfl

theorem colon_not_mem_label (link : Link) : ':' ∉ link.pad.label.toList := by
  rw [toList_label]
  cases link <;> simp [spelling, colon_not_mem_toDigits, Part.colon_not_mem_name]

/-- No link is taken for an engine input. -/
@[simp] theorem inputIndex?_pad (link : Link) : link.pad.inputIndex? = none :=
  Pad.inputIndex?_eq_none (colon_not_mem_label link)

/-- No link has the label of an engine input, whatever its index. -/
theorem pad_ne_input (link : Link) (index : Nat) : link.pad ≠ Pad.input index := by
  intro h
  refine colon_not_mem_label link ?_
  rw [h, Pad.input, String.toList_append]
  exact List.mem_append_right _ List.mem_cons_self

@[simp] theorem isInput_pad (link : Link) : link.pad.isInput = false := by
  rw [Pad.isInput, inputIndex?_pad]
  rfl

end Link

end Segue
