import Segue.Json.Reader
import Segue.Proofs.Graph.Labels
import Segue.Proofs.Text.Parts

/-!
Numbers as they are written. Main statement: a number that is made of digits in the way that the
notation asks for is read back whole, whatever stands behind it, as long as that is nothing that
would go on with it.
-/

namespace Segue.Json

/-- Text behind which a number is at its end. -/
def EndsNumber (rest : List Char) : Prop :=
  ∀ c, rest.head? = some c → c.isDigit = false ∧ c ≠ '.' ∧ c ≠ 'e' ∧ c ≠ 'E'

def AreDigits (digits : List Char) : Prop := digits ≠ [] ∧ ∀ c ∈ digits, c.isDigit = true

/-- A zero, or digits of which the first is no zero. -/
inductive IsWhole : List Char → Prop
  | zero : IsWhole ['0']
  | digits {first : Char} {digits : List Char} (hfirst : first ≠ '0') (hdigits : AreDigits (first :: digits)) :
      IsWhole (first :: digits)

/-- A number without its sign, as it is written. -/
structure Figure where
  /-- The digits before the point. -/
  whole : List Char
  /-- The digits behind the point. -/
  places : Option (List Char) := none
  /-- Whether the exponent is negative, and its digits. -/
  exponent : Option (Bool × List Char) := none
  isWhole : IsWhole whole
  arePlaces : ∀ digits, places = some digits → AreDigits digits
  areExponent : ∀ negative digits, exponent = some (negative, digits) → AreDigits digits

namespace Figure

def placesText : Option (List Char) → List Char
  | none => []
  | some digits => '.' :: digits

def exponentText : Option (Bool × List Char) → List Char
  | none => []
  | some (negative, digits) => 'e' :: (if negative then '-' else '+') :: digits

def exponentValue : Bool × List Char → Int
  | (negative, digits) => if negative then -Numeral.digitsValue digits else Numeral.digitsValue digits

variable (figure : Figure)

def text : List Char := figure.whole ++ (placesText figure.places ++ exponentText figure.exponent)

/-- What the number stands for, its sign given. -/
def value (negative : Bool) : Json :=
  numberValue negative figure.whole figure.places (figure.exponent.map exponentValue)

end Figure

variable {digits rest : List Char}

theorem endsNumber_nil : EndsNumber [] := nofun

theorem endsNumber_cons {c : Char} (hdigit : c.isDigit = false) (hpoint : c ≠ '.') (hmark : c ≠ 'e' ∧ c ≠ 'E')
    (rest : List Char) : EndsNumber (c :: rest) := by
  rintro _ ⟨⟩
  exact ⟨hdigit, hpoint, hmark⟩

theorem wholeDigits_append (h : IsWhole digits) (hrest : ∀ c, rest.head? = some c → c.isDigit = false) :
    wholeDigits (digits ++ rest) = some (digits, rest) := by
  cases h with
  | zero =>
      have hnone : ¬ rest.head?.any Char.isDigit = true := by
        cases hhead : rest.head? with
        | none => simp
        | some c => simp [hrest c hhead]
      exact if_neg hnone
  | @digits first digits hfirst hdigits =>
      obtain ⟨htake, hdrop⟩ := span_append hdigits.2 hrest
      unfold wholeDigits
      split
      · rename_i heq
        exact absurd (List.cons.inj heq).1 hfirst
      · rw [htake, hdrop]

theorem placesText_head (places : Option (List Char)) (hrest : ∀ c, rest.head? = some c → c.isDigit = false ∧ c ≠ '.') :
    ∀ c, (Figure.placesText places ++ rest).head? = some c → c.isDigit = false := by
  intro c hc
  cases places with
  | none => exact (hrest c hc).1
  | some digits =>
      cases hc
      rfl

theorem exponentText_head (exponent : Option (Bool × List Char)) (hrest : EndsNumber rest) :
    ∀ c, (Figure.exponentText exponent ++ rest).head? = some c → c.isDigit = false ∧ c ≠ '.' := by
  intro c hc
  cases exponent with
  | some exponent =>
      cases hc
      exact ⟨rfl, by decide⟩
  | none => exact ⟨(hrest c hc).1, (hrest c hc).2.1⟩

theorem placeDigits_point (text : List Char) :
    placeDigits ('.' :: text) = match text.takeWhile Char.isDigit with
      | [] => none
      | digits => some (some digits, text.dropWhile Char.isDigit) := rfl

theorem placeDigits_append {places : Option (List Char)} (h : ∀ digits, places = some digits → AreDigits digits)
    (hrest : ∀ c, rest.head? = some c → c.isDigit = false ∧ c ≠ '.') :
    placeDigits (Figure.placesText places ++ rest) = some (places, rest) := by
  cases places with
  | some digits =>
      obtain ⟨hsome, hdigits⟩ := h digits rfl
      obtain ⟨htake, hdrop⟩ := span_append hdigits fun c hc => (hrest c hc).1
      change placeDigits ('.' :: (digits ++ rest)) = _
      rw [placeDigits_point, htake, hdrop]
      cases digits with
      | nil => exact absurd rfl hsome
      | cons => rfl
  | none =>
      unfold placeDigits Figure.placesText
      split
      · rename_i behind heq
        exact absurd rfl (hrest '.' (by rw [List.nil_append] at heq; rw [heq]; rfl)).2
      · rfl

theorem splitSign_exponent (negative : Bool) (text : List Char) :
    Numeral.splitSign ((if negative then '-' else '+') :: text) = (negative, text) := by
  cases negative <;> rfl

theorem exponentPart_none (hrest : EndsNumber rest) : exponentPart rest = some (none, rest) := by
  cases rest with
  | nil => rfl
  | cons c rest =>
      obtain ⟨-, -, hsmall, hlarge⟩ := hrest c rfl
      exact if_neg (not_or.mpr ⟨hsmall, hlarge⟩)

theorem exponentPart_append {exponent : Option (Bool × List Char)}
    (h : ∀ negative digits, exponent = some (negative, digits) → AreDigits digits) (hrest : EndsNumber rest) :
    exponentPart (Figure.exponentText exponent ++ rest) = some (exponent.map Figure.exponentValue, rest) := by
  cases exponent with
  | some exponent =>
      obtain ⟨negative, digits⟩ := exponent
      obtain ⟨hsome, hdigits⟩ := h negative digits rfl
      obtain ⟨htake, hdrop⟩ := span_append hdigits fun c hc => (hrest c hc).1
      unfold exponentPart Figure.exponentText
      dsimp only [List.cons_append]
      rw [if_pos (.inl rfl), splitSign_exponent]
      dsimp only
      rw [htake, hdrop]
      cases digits with
      | nil => exact absurd rfl hsome
      | cons => rfl
  | none => exact exponentPart_none hrest

theorem number_figure (figure : Figure) (negative : Bool) (hrest : EndsNumber rest) :
    number negative (figure.text ++ rest) = some (figure.value negative, rest) := by
  have hwhole :=
    wholeDigits_append figure.isWhole (placesText_head figure.places (exponentText_head figure.exponent hrest))
  have hplaces := placeDigits_append figure.arePlaces (exponentText_head figure.exponent hrest)
  have hexponent := exponentPart_append figure.areExponent hrest
  rw [number, Figure.text, List.append_assoc, List.append_assoc]
  refine Option.bind_eq_some_iff.mpr ⟨_, hwhole, ?_⟩
  refine Option.bind_eq_some_iff.mpr ⟨_, hplaces, ?_⟩
  exact Option.bind_eq_some_iff.mpr ⟨_, hexponent, rfl⟩

theorem value_digit {c : Char} (hc : c.isDigit = true) (fuel : Nat) (text : List Char) :
    value (fuel + 1) (c :: text) = number false (c :: text) := by
  unfold value
  split
  all_goals first
    | rfl
    | rename_i heq
      obtain ⟨rfl, -⟩ := List.cons.inj heq
      cases hc

theorem Figure.exists_text_eq_cons (figure : Figure) :
    ∃ c rest, figure.text = c :: rest ∧ c.isDigit = true := by
  obtain ⟨whole, places, exponent, hwhole, -, -⟩ := figure
  cases hwhole with
  | zero => exact ⟨'0', _, rfl, rfl⟩
  | digits _ hdigits => exact ⟨_, _, rfl, hdigits.2 _ List.mem_cons_self⟩

def Figure.signed (figure : Figure) (negative : Bool) : List Char :=
  if negative then '-' :: figure.text else figure.text

/-- **Numbers** are read back as far as they are written. -/
theorem value_figure (figure : Figure) (negative : Bool) (fuel : Nat) (hrest : EndsNumber rest) :
    value (fuel + 1) (figure.signed negative ++ rest) = some (figure.value negative, rest) := by
  cases negative with
  | true => exact number_figure figure true hrest
  | false =>
      obtain ⟨c, text, htext, hc⟩ := figure.exists_text_eq_cons
      have hnumber := number_figure figure false hrest
      change value (fuel + 1) (figure.text ++ rest) = _
      rw [htext, List.cons_append] at hnumber ⊢
      rw [value_digit hc, hnumber]

theorem exists_toDigits_eq_cons {n : Nat} (h : 0 < n) :
    ∃ first digits, Nat.toDigits 10 n = first :: digits ∧ first ≠ '0' := by
  induction n using Nat.strongRecOn with
  | ind n ih =>
      rcases Nat.lt_or_ge n 10 with hsmall | hlarge
      · exact ⟨n.digitChar, [], Nat.toDigits_of_lt_base hsmall, by simpa using Nat.ne_of_gt h⟩
      · obtain ⟨first, digits, hdigits, hfirst⟩ := ih (n / 10) (by omega) (by omega)
        refine ⟨first, digits ++ [(n % 10).digitChar], ?_, hfirst⟩
        rw [Nat.toDigits_of_base_le (by decide) hlarge, hdigits, List.cons_append]

theorem areDigits_toDigits (n : Nat) : AreDigits (Nat.toDigits 10 n) :=
  ⟨Nat.toDigits_ne_nil, fun _ => isDigit_of_mem_toDigits_ten⟩

theorem isWhole_toDigits (n : Nat) : IsWhole (Nat.toDigits 10 n) := by
  rcases Nat.eq_zero_or_pos n with rfl | hpos
  · rw [Nat.toDigits_zero]
    exact .zero
  · obtain ⟨first, digits, hdigits, hfirst⟩ := exists_toDigits_eq_cons hpos
    have hall := areDigits_toDigits n
    rw [hdigits] at hall ⊢
    exact .digits hfirst hall

theorem areDigits_none (negative : Bool) (digits : List Char) (h : none = some (negative, digits)) :
    AreDigits digits := by
  cases h

def Figure.ofNat (n : Nat) : Figure where
  whole := Nat.toDigits 10 n
  isWhole := isWhole_toDigits n
  arePlaces := by simp
  areExponent := areDigits_none

theorem toList_toString_int (n : Int) :
    (toString n).toList = (Figure.ofNat n.natAbs).signed (decide (n < 0)) := by
  have htext : ∀ m : Nat, (Figure.ofNat m).text = Nat.toDigits 10 m := fun m => by
    rw [Figure.text, Figure.ofNat]
    exact List.append_nil _
  cases n with
  | ofNat m =>
      have hsign : decide (Int.ofNat m < 0) = false := by simp
      rw [hsign, Figure.signed, if_neg Bool.false_ne_true, htext]
      exact toList_toString m
  | negSucc m =>
      have hsign : decide (Int.negSucc m < 0) = true := by simp [Int.negSucc_lt_zero]
      rw [hsign, Figure.signed, if_pos rfl, htext]
      change ("-" ++ toString (m + 1)).toList = _
      rw [String.toList_append, toList_toString]
      rfl

theorem value_ofNat {n : Nat} (h : n < 2 ^ 64) : (Figure.ofNat n).value false = .int n := by
  unfold Figure.value numberValue
  dsimp only [Figure.ofNat]
  rw [Pad.digitsValue_toDigits]
  exact if_pos (by simpa using h)

end Segue.Json
