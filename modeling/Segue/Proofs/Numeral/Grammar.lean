import Segue.Numeral.Reading
import Segue.Proofs.Json.Figures

/-!
The liberal notation of numbers as a grammar, beside the reader. Main statement: a text is read as a
number just when it is one of the grammar, and then as the double that the grammar gives it.
-/

namespace Segue.Numeral

open Json (AreDigits)
open Json.Figure (placesText)

/-- A sign or none, and whether it is a minus. -/
inductive IsSign : List Char → Bool → Prop
  | none : IsSign [] false
  | plus : IsSign ['+'] false
  | minus : IsSign ['-'] true

inductive IsExponent : List Char → Int → Prop
  | none : IsExponent [] 0
  | marked {mark : Char} {sign digits : List Char} {negative : Bool} (hmark : mark = 'e' ∨ mark = 'E')
      (hsign : IsSign sign negative) (hdigits : AreDigits digits) :
      IsExponent (mark :: (sign ++ digits)) (if negative then -digitsValue digits else digitsValue digits)

/-- Digits, a point in front of them, among them, behind them or nowhere, and an exponent; the sign
is given. -/
inductive IsDecimal (negative : Bool) : List Char → Float → Prop
  | parts {whole text : List Char} {places : Option (List Char)} {exponent : Int}
      (hdigits : AreDigits (whole ++ places.getD [])) (hexponent : IsExponent text exponent) :
      IsDecimal negative (whole ++ (placesText places ++ text))
        (nearest negative (digitsValue (whole ++ places.getD [])) (exponent - (places.getD []).length))

def IsWord (word : String) (text : List Char) : Prop := text.map Char.toLower = word.toList

instance (word : String) (text : List Char) : Decidable (IsWord word text) :=
  inferInstanceAs (Decidable (text.map Char.toLower = word.toList))

/-- A number from its first character to its last, and the double that it stands for. -/
inductive IsNumber : List Char → Float → Prop
  | decimal {sign text : List Char} {negative : Bool} {x : Float} (hsign : IsSign sign negative)
      (h : IsDecimal negative text x) : IsNumber (sign ++ text) x
  | infinite {sign text : List Char} {negative : Bool} (hsign : IsSign sign negative)
      (h : IsWord "inf" text ∨ IsWord "infinity" text) :
      IsNumber (sign ++ text) (if negative then -1.0 / 0.0 else 1.0 / 0.0)
  | undefined {sign text : List Char} {negative : Bool} (hsign : IsSign sign negative) (h : IsWord "nan" text) :
      IsNumber (sign ++ text) (0.0 / 0.0)

section

variable {sign text : List Char} {negative : Bool}

def Unsigned (text : List Char) : Prop := ∀ c, text.head? = some c → c ≠ '+' ∧ c ≠ '-'

theorem exists_sign (text : List Char) :
    ∃ sign negative body, splitSign text = (negative, body) ∧ IsSign sign negative ∧ text = sign ++ body := by
  unfold splitSign
  split
  · exact ⟨['-'], true, _, rfl, .minus, rfl⟩
  · exact ⟨['+'], false, _, rfl, .plus, rfl⟩
  · exact ⟨[], false, _, rfl, .none, rfl⟩

theorem IsSign.splitSign_append (h : IsSign sign negative) (htext : Unsigned text) :
    splitSign (sign ++ text) = (negative, text) := by
  cases h with
  | plus | minus => rfl
  | none =>
      rw [List.nil_append]
      unfold splitSign
      split
      · exact absurd rfl (htext _ rfl).2
      · exact absurd rfl (htext _ rfl).1
      · rfl

theorem IsSign.colon_not_mem (h : IsSign sign negative) : ':' ∉ sign := by
  cases h <;> decide

end

section

variable {text digits : List Char} {negative : Bool}

theorem unsigned_cons {c : Char} (h : c.isDigit = true ∨ c = '.') (text : List Char) : Unsigned (c :: text) := by
  rintro _ ⟨⟩
  refine ⟨?_, ?_⟩ <;> rintro rfl <;> exact absurd h (by decide)

theorem unsigned_digits (h : AreDigits digits) : Unsigned digits := by
  obtain ⟨c, rest, rfl⟩ := List.exists_cons_of_ne_nil h.1
  exact unsigned_cons (.inl (h.2 c List.mem_cons_self)) rest

theorem colon_not_mem_digits (h : AreDigits digits) : ':' ∉ digits :=
  fun hmem => absurd (h.2 ':' hmem) (by decide)

theorem exponent?_eq_some_iff {exponent : Int} : exponent? text = some exponent ↔ IsExponent text exponent := by
  constructor
  · intro h
    cases text with
    | nil =>
        cases h
        exact .none
    | cons mark rest =>
        obtain ⟨sign, negative, digits, hsplit, hsign, rfl⟩ := exists_sign rest
        rw [exponent?, hsplit, Option.ite_none_right_eq_some, Option.ite_none_right_eq_some, Option.some.injEq] at h
        obtain ⟨hmark, ⟨hsome, hall⟩, rfl⟩ := h
        exact .marked hmark hsign ⟨hsome, List.all_eq_true.mp hall⟩
  · rintro (_ | @⟨mark, sign, digits, negative, hmark, hsign, hdigits⟩)
    · rfl
    · have hsplit := hsign.splitSign_append (unsigned_digits hdigits)
      rw [exponent?, hsplit, if_pos hmark]
      exact if_pos ⟨hdigits.1, List.all_eq_true.mpr hdigits.2⟩

/-- No exponent goes on with the number that it stands behind. -/
theorem IsExponent.head {exponent : Int} (h : IsExponent text exponent) :
    ∀ c, text.head? = some c → c.isDigit = false ∧ c ≠ '.' := by
  intro c hc
  cases h with
  | none => cases hc
  | marked hmark =>
      cases hc
      rcases hmark with rfl | rfl <;> decide

theorem IsExponent.colon_not_mem {exponent : Int} (h : IsExponent text exponent) : ':' ∉ text := by
  cases h with
  | none => exact List.not_mem_nil
  | marked hmark hsign hdigits =>
      rw [List.mem_cons, List.mem_append, not_or, not_or]
      refine ⟨?_, hsign.colon_not_mem, colon_not_mem_digits hdigits⟩
      rintro rfl
      exact absurd hmark (by decide)

/-- Where the digits end an exponent is read. Without places that end is no point, since behind a
point digits would go on. -/
theorem unsigned?_append {whole rest : List Char} {places : Option (List Char)}
    (hdigits : ∀ c ∈ whole ++ places.getD [], c.isDigit = true) (hrest : ∀ c, rest.head? = some c → c.isDigit = false)
    (hpoint : places = none → rest.head? ≠ some '.') :
    unsigned? negative (whole ++ (placesText places ++ rest)) =
      if whole ++ places.getD [] = [] then none
      else (exponent? rest).map fun exponent =>
        nearest negative (digitsValue (whole ++ places.getD [])) (exponent - (places.getD []).length) := by
  obtain ⟨hwhole, hplaces⟩ := List.forall_mem_append.mp hdigits
  simp only [List.append_eq_nil_iff]
  cases places with
  | none =>
      obtain ⟨htake, hdrop⟩ := span_append hwhole hrest
      have hcut : placesText none ++ rest = rest := rfl
      rw [hcut, unsigned?, htake, hdrop]
      split
      rename_i heq
      split at heq
      · exact absurd rfl (hpoint rfl)
      · cases heq
        rfl
  | some digits =>
      have hhead : ∀ c, ('.' :: (digits ++ rest)).head? = some c → c.isDigit = false := by
        rintro c ⟨⟩
        rfl
      obtain ⟨htake, hdrop⟩ := span_append hwhole hhead
      obtain ⟨htake', hdrop'⟩ := span_append hplaces hrest
      have hcut : placesText (some digits) ++ rest = '.' :: (digits ++ rest) := rfl
      rw [Option.getD_some] at htake' hdrop'
      simp only [hcut, unsigned?, htake, hdrop, htake', hdrop', Option.getD_some]

/-- Every text is taken apart into digits around a point and what stands behind them. -/
theorem exists_places (text : List Char) : ∃ whole places rest, text = whole ++ (placesText places ++ rest) ∧
    (∀ c ∈ whole ++ places.getD [], c.isDigit = true) ∧ (∀ c, rest.head? = some c → c.isDigit = false) ∧
    (places = none → rest.head? ≠ some '.') := by
  obtain ⟨whole, rest, rfl, hwhole, hrest⟩ := exists_span Char.isDigit text
  by_cases hpoint : rest.head? = some '.'
  · obtain ⟨behind, rfl⟩ := List.head?_eq_some_iff.mp hpoint
    obtain ⟨digits, rest, rfl, hdigits, hrest⟩ := exists_span Char.isDigit behind
    exact ⟨whole, some digits, rest, rfl, List.forall_mem_append.mpr ⟨hwhole, hdigits⟩, hrest, nofun⟩
  · exact ⟨whole, none, rest, rfl, List.forall_mem_append.mpr ⟨hwhole, nofun⟩, hrest, fun _ => hpoint⟩

theorem unsigned?_eq_some_iff {x : Float} : unsigned? negative text = some x ↔ IsDecimal negative text x := by
  constructor
  · intro h
    obtain ⟨whole, places, rest, rfl, hdigits, hrest, hpoint⟩ := exists_places text
    rw [unsigned?_append hdigits hrest hpoint, Option.ite_none_left_eq_some, Option.map_eq_some_iff] at h
    obtain ⟨hsome, exponent, hexponent, rfl⟩ := h
    exact .parts ⟨hsome, hdigits⟩ (exponent?_eq_some_iff.mp hexponent)
  · rintro @⟨whole, text, places, exponent, hdigits, hexponent⟩
    have hhead := hexponent.head
    rw [unsigned?_append hdigits.2 (fun c hc => (hhead c hc).1) (fun _ hpoint => (hhead '.' hpoint).2 rfl),
      if_neg hdigits.1, exponent?_eq_some_iff.mpr hexponent, Option.map_some]

/-- A decimal begins with a digit or with its point. -/
theorem IsDecimal.exists_eq_cons {x : Float} (h : IsDecimal negative text x) :
    ∃ c rest, text = c :: rest ∧ (c.isDigit = true ∨ c = '.') := by
  obtain @⟨whole, text, places, exponent, hdigits, -⟩ := h
  cases whole with
  | cons c whole => exact ⟨c, _, rfl, .inl (hdigits.2 c List.mem_cons_self)⟩
  | nil =>
      cases places with
      | some digits => exact ⟨'.', _, rfl, .inr rfl⟩
      | none => exact absurd rfl hdigits.1

theorem IsDecimal.colon_not_mem {x : Float} (h : IsDecimal negative text x) : ':' ∉ text := by
  obtain @⟨whole, text, places, exponent, hdigits, hexponent⟩ := h
  have hnot := colon_not_mem_digits hdigits
  have hexponent := hexponent.colon_not_mem
  cases places with
  | none =>
      rw [Option.getD_none, List.append_nil] at hnot
      exact List.not_mem_append hnot hexponent
  | some digits =>
      simp only [Option.getD_some, placesText, List.mem_append, List.mem_cons, not_or] at hnot ⊢
      exact ⟨hnot.1, ⟨by decide, hnot.2⟩, hexponent⟩

end

theorem isAlpha_of_isDigit {c : Char} (h : c.isDigit = true) : c.isAlpha = false := by
  simp only [Char.isDigit, Char.isAlpha, Char.isUpper, Char.isLower, Bool.and_eq_true, Bool.or_eq_false_iff,
    Bool.and_eq_false_iff, decide_eq_true_eq, decide_eq_false_iff_not, ge_iff_le, UInt32.le_iff_toNat_le,
    Char.reduceVal, UInt32.reduceToNat] at h ⊢
  omega

section

variable {word : String} {text : List Char}

/-- Nothing but letters stands in a word of letters. -/
theorem IsWord.isAlpha (h : IsWord word text) (hword : word.toList.all Char.isAlpha = true) :
    ∀ c ∈ text, c.isAlpha = true := by
  intro c hc
  rw [← Char.isAlpha_toLower_eq_isAlpha]
  exact List.all_eq_true.mp hword _ (h ▸ List.mem_map_of_mem hc)

theorem IsWord.unsigned (h : IsWord word text) (hword : word.toList.all Char.isAlpha = true) : Unsigned text := by
  intro c hc
  have hletter := h.isAlpha hword c (List.mem_of_mem_head? hc)
  refine ⟨?_, ?_⟩ <;> rintro rfl <;> exact absurd hletter (by decide)

theorem IsWord.colon_not_mem (h : IsWord word text) (hword : word.toList.all Char.isAlpha = true) : ':' ∉ text :=
  fun hmem => absurd (h.isAlpha hword ':' hmem) (by decide)

/-- No decimal is a word of letters. -/
theorem IsDecimal.not_isWord {negative : Bool} {x : Float} (h : IsDecimal negative text x)
    (hword : word.toList.all Char.isAlpha = true) : ¬ IsWord word text := by
  intro hletters
  obtain ⟨c, rest, rfl, hc⟩ := h.exists_eq_cons
  have hletter := hletters.isAlpha hword c List.mem_cons_self
  rcases hc with hdigit | rfl
  · rw [isAlpha_of_isDigit hdigit] at hletter
    cases hletter
  · exact absurd hletter (by decide)

end

section

variable {sign text : List Char} {negative : Bool} {x : Float}

/-- **Numbers** are just what is read as one. -/
theorem float?_eq_some_iff : float? (String.ofList text) = some x ↔ IsNumber text x := by
  constructor
  · intro h
    obtain ⟨sign, negative, body, hsplit, hsign, rfl⟩ := exists_sign text
    rw [float?, String.toList_ofList, hsplit] at h
    dsimp only at h
    split at h
    · rename_i hword
      cases h
      exact .infinite hsign hword
    · split at h
      · rename_i hword
        cases h
        exact .undefined hsign hword
      · exact .decimal hsign (unsigned?_eq_some_iff.mp h)
  · rintro (@⟨sign, body, negative, x, hsign, hdecimal⟩ | @⟨sign, body, negative, hsign, hword⟩ |
      @⟨sign, body, negative, hsign, hword⟩)
    · obtain ⟨c, rest, hbody, hc⟩ := hdecimal.exists_eq_cons
      have hinfinite : ¬ (IsWord "inf" body ∨ IsWord "infinity" body) :=
        not_or.mpr ⟨hdecimal.not_isWord rfl, hdecimal.not_isWord rfl⟩
      rw [float?, String.toList_ofList, hsign.splitSign_append (hbody ▸ unsigned_cons hc rest)]
      exact (if_neg hinfinite).trans ((if_neg (hdecimal.not_isWord rfl)).trans (unsigned?_eq_some_iff.mpr hdecimal))
    · have hunsigned : Unsigned body := hword.elim (·.unsigned rfl) (·.unsigned rfl)
      rw [float?, String.toList_ofList, hsign.splitSign_append hunsigned]
      exact if_pos hword
    · rw [float?, String.toList_ofList, hsign.splitSign_append (hword.unsigned rfl)]
      dsimp only
      rw [show body.map Char.toLower = "nan".toList from hword]
      rfl

theorem IsNumber.colon_not_mem (h : IsNumber text x) : ':' ∉ text := by
  cases h with
  | decimal hsign h => exact List.not_mem_append hsign.colon_not_mem h.colon_not_mem
  | infinite hsign h =>
      exact List.not_mem_append hsign.colon_not_mem (h.elim (·.colon_not_mem rfl) (·.colon_not_mem rfl))
  | undefined hsign h => exact List.not_mem_append hsign.colon_not_mem (h.colon_not_mem rfl)

end

end Segue.Numeral
