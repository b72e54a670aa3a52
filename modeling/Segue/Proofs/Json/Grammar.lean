import Segue.Proofs.Json.RoundTrip

/-!
The notation as a grammar, beside the reader: which texts are values, and which values they are.
Main statements: every text of the grammar is read as its value, whatever stands behind it that does
not go on with a number; and an object is one block.
-/

namespace Segue.Json

def AreBlanks (text : List Char) : Prop := ∀ c ∈ text, isBlank c = true

/-- A string behind its opening quote, the closing one included, with its pieces. -/
inductive IsString : List Char → List Piece → Prop
  | close : IsString ['"'] []
  | char {c : Char} {text : List Char} {found : List Piece} (hquote : c ≠ '"') (hescape : c ≠ '\\')
      (hcontrol : ¬ c.toNat < 0x20) (h : IsString text found) : IsString (c :: text) (.char c :: found)
  | escaped {letter c : Char} {text : List Char} {found : List Piece} (hletter : shortEscape? letter = some c)
      (h : IsString text found) : IsString ('\\' :: letter :: text) (.char c :: found)
  | unit {a b c d : Char} {value : Nat} {text : List Char} {found : List Piece} (hunit : hexUnit? a b c d = some value)
      (h : IsString text found) : IsString ('\\' :: 'u' :: a :: b :: c :: d :: text) (.unit value :: found)

/-- The text that pieces stand for, unless there is half of a surrogate pair among them. -/
def textOf? (found : List Piece) : Option String := (charsOfPieces found).map String.ofList

inductive IsExponent : List Char → Option Int → Prop
  | none : IsExponent [] none
  | unsigned {mark : Char} {digits : List Char} (hmark : mark = 'e' ∨ mark = 'E') (hdigits : AreDigits digits) :
      IsExponent (mark :: digits) (some (Numeral.digitsValue digits))
  | plus {mark : Char} {digits : List Char} (hmark : mark = 'e' ∨ mark = 'E') (hdigits : AreDigits digits) :
      IsExponent (mark :: '+' :: digits) (some (Numeral.digitsValue digits))
  | minus {mark : Char} {digits : List Char} (hmark : mark = 'e' ∨ mark = 'E') (hdigits : AreDigits digits) :
      IsExponent (mark :: '-' :: digits) (some (-Numeral.digitsValue digits))

/-- A number without its sign, the sign given. -/
inductive IsNumber (negative : Bool) : List Char → Json → Prop
  | parts {whole text : List Char} {places : Option (List Char)} {exponent : Option Int} (hwhole : IsWhole whole)
      (hplaces : ∀ digits, places = some digits → AreDigits digits) (hexponent : IsExponent text exponent) :
      IsNumber negative (whole ++ (Figure.placesText places ++ text)) (numberValue negative whole places exponent)

mutual

/-- A value from its first character to its last. -/
inductive IsValue : List Char → Json → Prop
  | null : IsValue ['n', 'u', 'l', 'l'] .null
  | true : IsValue ['t', 'r', 'u', 'e'] (.bool Bool.true)
  | false : IsValue ['f', 'a', 'l', 's', 'e'] (.bool Bool.false)
  | number {text : List Char} {found : Json} (h : IsNumber Bool.false text found) : IsValue text found
  | negative {text : List Char} {found : Json} (h : IsNumber Bool.true text found) : IsValue ('-' :: text) found
  | string {text : List Char} {found : List Piece} (h : IsString text found) :
      IsValue ('"' :: text) (((textOf? found).map Json.string).getD .unreadable)
  | emptyArray {blanks : List Char} (hblanks : AreBlanks blanks) : IsValue ('[' :: (blanks ++ [']'])) (.array [])
  | array {blanks text : List Char} {found : List Json} (hblanks : AreBlanks blanks) (h : AreElements text found) :
      IsValue ('[' :: (blanks ++ text)) (.array found)
  | emptyObject {blanks : List Char} (hblanks : AreBlanks blanks) :
      IsValue ('\x7b' :: (blanks ++ ['\x7d'])) (.object [])
  | object {blanks text : List Char} {found : List (Option String × Json)} (hblanks : AreBlanks blanks)
      (h : AreMembers text found) : IsValue ('\x7b' :: (blanks ++ text)) (ofMembers found)

/-- The elements of an array from the first one to the closing bracket. -/
inductive AreElements : List Char → List Json → Prop
  | last {text blanks : List Char} {head : Json} (h : IsValue text head) (hblanks : AreBlanks blanks) :
      AreElements (text ++ (blanks ++ [']'])) [head]
  | more {text blanks blanks' rest : List Char} {head : Json} {tail : List Json} (h : IsValue text head)
      (hblanks : AreBlanks blanks) (hblanks' : AreBlanks blanks') (hrest : AreElements rest tail) :
      AreElements (text ++ (blanks ++ ',' :: (blanks' ++ rest))) (head :: tail)

/-- The members of an object from the first one to the closing brace; no name where one cannot be
read. -/
inductive AreMembers : List Char → List (Option String × Json) → Prop
  | last {name blanks blanks' text blanks'' : List Char} {found : List Piece} {head : Json}
      (hname : IsString name found) (hblanks : AreBlanks blanks) (hblanks' : AreBlanks blanks')
      (h : IsValue text head) (hblanks'' : AreBlanks blanks'') :
      AreMembers ('"' :: (name ++ (blanks ++ ':' :: (blanks' ++ (text ++ (blanks'' ++ ['\x7d']))))))
        [(textOf? found, head)]
  | more {name blanks blanks' text blanks'' blanks₃ rest : List Char} {found : List Piece} {head : Json}
      {tail : List (Option String × Json)} (hname : IsString name found) (hblanks : AreBlanks blanks)
      (hblanks' : AreBlanks blanks') (h : IsValue text head) (hblanks'' : AreBlanks blanks'')
      (hblanks₃ : AreBlanks blanks₃) (hrest : AreMembers rest tail) :
      AreMembers ('"' :: (name ++ (blanks ++ ':' :: (blanks' ++ (text ++ (blanks'' ++ ',' :: (blanks₃ ++ rest)))))))
        ((textOf? found, head) :: tail)

end

theorem IsString.pieces_append {text : List Char} {found : List Piece} (h : IsString text found) (rest : List Char) :
    pieces (text ++ rest) = some (found, rest) := by
  induction h with
  | close => rfl
  | char hquote hescape hcontrol _ ih => rw [List.cons_append, pieces_char hquote hescape hcontrol, ih, Option.map_some]
  | escaped hletter _ ih => rw [List.cons_append, List.cons_append, pieces_escaped hletter, ih, Option.map_some]
  | unit hunit _ ih =>
      simp only [List.cons_append]
      rw [pieces_unit _ _ _ _ hunit, ih, Option.map_some]

theorem IsString.stringBody_append {text : List Char} {found : List Piece} (h : IsString text found)
    (rest : List Char) : stringBody (text ++ rest) = some (textOf? found, rest) := by
  rw [stringBody, h.pieces_append, Option.map_some, textOf?]

section

variable {text digits rest : List Char}

theorem AreDigits.span (h : AreDigits digits) (hrest : EndsNumber rest) :
    (digits ++ rest).takeWhile Char.isDigit = digits ∧ (digits ++ rest).dropWhile Char.isDigit = rest :=
  span_append h.2 fun c hc => (hrest c hc).1

theorem exponentPart_mark {mark : Char} (hmark : mark = 'e' ∨ mark = 'E') (hrest : EndsNumber rest) {negative : Bool}
    (hdigits : AreDigits digits) (hsign : Numeral.splitSign (text ++ rest) = (negative, digits ++ rest)) :
    exponentPart (mark :: (text ++ rest)) =
      some (some (if negative then -(Numeral.digitsValue digits : Int) else Numeral.digitsValue digits), rest) := by
  obtain ⟨htake, hdrop⟩ := hdigits.span hrest
  unfold exponentPart
  dsimp only
  rw [if_pos hmark, hsign]
  dsimp only
  rw [htake, hdrop]
  cases digits with
  | nil => exact absurd rfl hdigits.1
  | cons => rfl

theorem splitSign_digits (hdigits : AreDigits digits) (rest : List Char) :
    Numeral.splitSign (digits ++ rest) = (false, digits ++ rest) := by
  obtain ⟨hsome, hall⟩ := hdigits
  obtain ⟨c, digits, rfl⟩ := List.exists_cons_of_ne_nil hsome
  have hc := hall c List.mem_cons_self
  unfold Numeral.splitSign
  split
  · rename_i heq
    obtain ⟨rfl, -⟩ := List.cons.inj heq
    cases hc
  · rename_i heq
    obtain ⟨rfl, -⟩ := List.cons.inj heq
    cases hc
  · rfl

theorem IsExponent.exponentPart_append {exponent : Option Int} (h : IsExponent text exponent)
    (hrest : EndsNumber rest) : exponentPart (text ++ rest) = some (exponent, rest) := by
  cases h with
  | none => exact exponentPart_none hrest
  | unsigned hmark hdigits => exact exponentPart_mark hmark hrest hdigits (splitSign_digits hdigits rest)
  | @plus mark digits hmark hdigits => exact @exponentPart_mark ('+' :: digits) _ _ _ hmark hrest _ hdigits rfl
  | @minus mark digits hmark hdigits => exact @exponentPart_mark ('-' :: digits) _ _ _ hmark hrest _ hdigits rfl

/-- No exponent starts with a digit or a point. -/
theorem IsExponent.head {exponent : Option Int} (h : IsExponent text exponent) (hrest : EndsNumber rest) :
    ∀ c, (text ++ rest).head? = some c → c.isDigit = false ∧ c ≠ '.' := by
  have hmarked : ∀ {mark : Char}, mark = 'e' ∨ mark = 'E' → mark.isDigit = false ∧ mark ≠ '.' := by
    rintro mark (rfl | rfl) <;> decide
  intro c hc
  cases h with
  | none => exact ⟨(hrest c hc).1, (hrest c hc).2.1⟩
  | unsigned hmark | plus hmark | minus hmark =>
      cases hc
      exact hmarked hmark

theorem IsNumber.number_append {negative : Bool} {found : Json} (h : IsNumber negative text found)
    (hrest : EndsNumber rest) : number negative (text ++ rest) = some (found, rest) := by
  obtain @⟨whole, text, places, exponent, hwhole, hplaces, hexponent⟩ := h
  have hhead := hexponent.head hrest
  rw [number, List.append_assoc, List.append_assoc]
  refine Option.bind_eq_some_iff.mpr ⟨_, wholeDigits_append hwhole (placesText_head places hhead), ?_⟩
  refine Option.bind_eq_some_iff.mpr ⟨_, placeDigits_append hplaces hhead, ?_⟩
  exact Option.bind_eq_some_iff.mpr ⟨_, hexponent.exponentPart_append hrest, rfl⟩

theorem IsNumber.exists_eq_cons {negative : Bool} {found : Json} (h : IsNumber negative text found) :
    ∃ c behind, text = c :: behind ∧ c.isDigit = true := by
  obtain ⟨hwhole, -, -⟩ := h
  cases hwhole with
  | zero => exact ⟨'0', _, rfl, rfl⟩
  | digits _ hdigits => exact ⟨_, _, rfl, hdigits.2 _ List.mem_cons_self⟩

end

section

variable {text rest : List Char} {found : Json}

theorem IsValue.startsValue (h : IsValue text found) : StartsValue text := by
  cases h with
  | number h =>
      obtain ⟨c, behind, rfl, hc⟩ := h.exists_eq_cons
      refine ⟨c, behind, rfl, Bool.eq_false_iff.mpr fun hblank => ?_, ?_⟩
      · rw [isDigit_of_isBlank hblank] at hc
        cases hc
      · rintro rfl
        cases hc
  | _ => exact ⟨_, _, rfl, rfl, by decide⟩

theorem AreElements.startsValue {found : List Json} (h : AreElements text found) : StartsValue text := by
  cases h with
  | last h | more h => exact h.startsValue.append _

theorem AreMembers.exists_eq_cons {found : List (Option String × Json)} (h : AreMembers text found) :
    ∃ body, text = '"' :: body := by
  cases h <;> exact ⟨_, rfl⟩

/-- Behind a value blanks and a mark are at its end. -/
theorem endsNumber_mark {blanks : List Char} (hblanks : AreBlanks blanks) {mark : Char}
    (hmark : mark = ',' ∨ mark = ']' ∨ mark = '\x7d') (rest : List Char) : EndsNumber (blanks ++ mark :: rest) := by
  refine endsNumber_blanks hblanks ?_
  rcases hmark with rfl | rfl | rfl <;> exact endsNumber_cons rfl (by decide) (by decide) rest

/-- There is fuel for the first character of a text that is no longer than the fuel. -/
theorem exists_fuel {text behind : List Char} {c : Char} (htext : text = c :: behind) {fuel : Nat}
    (hfuel : text.length ≤ fuel) : ∃ less, fuel = less + 1 := by
  rw [htext, List.length_cons] at hfuel
  exact Nat.exists_eq_add_one_of_ne_zero (Nat.ne_of_gt ((Nat.succ_pos _).trans_le hfuel))

mutual

theorem IsValue.value_append {text : List Char} {found : Json} (h : IsValue text found) {fuel : Nat}
    (hfuel : text.length ≤ fuel) {rest : List Char} (hrest : EndsNumber rest) :
    value fuel (text ++ rest) = some (found, rest) := by
  obtain ⟨c, behind, htext, -⟩ := h.startsValue
  obtain ⟨fuel, rfl⟩ := exists_fuel htext hfuel
  match h with
  | .null => exact (value_words fuel rest).1
  | .true => exact (value_words fuel rest).2.1
  | .false => exact (value_words fuel rest).2.2
  | .number h =>
      obtain ⟨c, behind, rfl, hc⟩ := h.exists_eq_cons
      rw [List.cons_append, value_digit hc]
      exact h.number_append hrest
  | .negative h => exact h.number_append hrest
  | .string h =>
      rw [List.cons_append, value, h.stringBody_append]
      rfl
  | .emptyArray hblanks =>
      rw [List.cons_append, List.append_assoc, List.singleton_append, value_bracket, skipBlanks_append hblanks rfl]
      rfl
  | .array hblanks h =>
      have hstarts := h.startsValue.append rest
      rw [List.length_cons, List.length_append] at hfuel
      rw [List.cons_append, List.append_assoc]
      exact value_array (hstarts.skipBlanks hblanks) hstarts (h.elements_append (by omega) rest)
  | .emptyObject hblanks =>
      rw [List.cons_append, List.append_assoc, List.singleton_append, value_open, skipBlanks_append hblanks rfl]
      rfl
  | .object hblanks h =>
      rw [List.length_cons, List.length_append] at hfuel
      have hmembers := @AreMembers.members_append _ _ h fuel (by omega) rest
      obtain ⟨body, rfl⟩ := h.exists_eq_cons
      rw [List.cons_append, List.append_assoc]
      exact value_object (skipBlanks_append hblanks rfl) hmembers

theorem AreElements.elements_append {text : List Char} {found : List Json} (h : AreElements text found) {fuel : Nat}
    (hfuel : text.length ≤ fuel) (rest : List Char) : elements fuel (text ++ rest) = some (found, rest) := by
  obtain ⟨c, behind, htext, -⟩ := h.startsValue
  obtain ⟨fuel, rfl⟩ := exists_fuel htext hfuel
  match h with
  | .last h hblanks =>
      simp only [List.length_append, List.length_singleton] at hfuel
      have hends := endsNumber_mark hblanks (.inr (.inl rfl)) rest
      have hvalue := @IsValue.value_append _ _ h fuel (by omega) _ hends
      simp only [List.append_assoc, List.singleton_append]
      exact elements_last hvalue hblanks
  | @AreElements.more _ _ blanks' behind _ _ h hblanks hblanks' hrest =>
      simp only [List.length_append, List.length_cons] at hfuel
      have hstarts := hrest.startsValue.append rest
      have htail := @AreElements.elements_append _ _ hrest fuel (by omega) rest
      have hends := endsNumber_mark hblanks (.inl rfl) (blanks' ++ (behind ++ rest))
      have hvalue := @IsValue.value_append _ _ h fuel (by omega) _ hends
      simp only [List.append_assoc, List.cons_append]
      exact elements_more hvalue (skipBlanks_append hblanks rfl) (hstarts.skipBlanks hblanks') htail

theorem AreMembers.members_append {text : List Char} {found : List (Option String × Json)} (h : AreMembers text found)
    {fuel : Nat} (hfuel : text.length ≤ fuel) (rest : List Char) :
    members fuel (text ++ rest) = some (found, rest) := by
  obtain ⟨body, htext⟩ := h.exists_eq_cons
  obtain ⟨fuel, rfl⟩ := exists_fuel htext hfuel
  match h with
  | .last hname hblanks hblanks' h hblanks'' =>
      simp only [List.length_append, List.length_cons] at hfuel
      have hends := endsNumber_mark hblanks'' (.inr (.inr rfl)) rest
      have hvalue := @IsValue.value_append _ _ h fuel (by omega) _ hends
      rw [← (h.startsValue.append _).skipBlanks hblanks'] at hvalue
      simp only [List.append_assoc, List.cons_append, List.nil_append]
      exact members_last (hname.stringBody_append _) (skipBlanks_append hblanks rfl) hvalue hblanks''
  | @AreMembers.more _ _ _ _ _ blanks₃ behind _ _ _ hname hblanks hblanks' h hblanks'' hblanks₃ hrest =>
      simp only [List.length_append, List.length_cons] at hfuel
      have htail := @AreMembers.members_append _ _ hrest fuel (by omega) rest
      have hends := endsNumber_mark hblanks'' (.inl rfl) (blanks₃ ++ (behind ++ rest))
      have hvalue := @IsValue.value_append _ _ h fuel (by omega) _ hends
      rw [← (h.startsValue.append _).skipBlanks hblanks'] at hvalue
      obtain ⟨body, rfl⟩ := hrest.exists_eq_cons
      simp only [List.append_assoc, List.cons_append]
      exact members_more (hname.stringBody_append _) (skipBlanks_append hblanks rfl) hvalue
        (skipBlanks_append hblanks'' rfl) (skipBlanks_append hblanks₃ rfl) htail

end

end

structure IsObject (text : List Char) (found : Json) : Prop where
  isValue : IsValue text found
  head : text.head? = some '\x7b'

/-- **Texts of the grammar** are read as their values. -/
theorem IsValue.parse? {text : List Char} {found : Json} (h : IsValue text found) :
    Json.parse? (String.ofList text) = some found := by
  obtain ⟨c, behind, htext, hblank, -⟩ := h.startsValue
  have hvalue := h.value_append (Nat.le_succ text.length) endsNumber_nil
  have hskip : skipBlanks text = text := by rw [htext, skipBlanks_cons hblank]
  rw [List.append_nil] at hvalue
  rw [parse?_ofList, hskip]
  exact ⟨[], hvalue, rfl⟩

end Segue.Json
