import Segue.Json.Reader
import Segue.Proofs.Loudness.Blocks

/-!
How far a value that is read reaches. Main statement: whatever the reader takes for a value has all
its braces and quotes in pairs, as the scan for blocks counts them; an object is one block.
-/

namespace Segue.Json

open Block (IsPlain StringTail Inner)

theorem isPlain_of_isBlank {c : Char} (h : isBlank c = true) : IsPlain c := by
  refine ⟨?_, ?_, ?_⟩ <;>
  · rintro rfl
    cases h

theorem isPlain_of_isDigit {c : Char} (h : c.isDigit = true) : IsPlain c := by
  refine ⟨?_, ?_, ?_⟩ <;>
  · rintro rfl
    cases h

theorem inner_takeWhile {p : Char → Bool} (hp : ∀ {c : Char}, p c = true → IsPlain c) (text : List Char) :
    Inner (text.takeWhile p) :=
  .of_forall fun _ hc => hp (List.all_eq_true.mp (List.all_takeWhile (l := text)) _ hc)

theorem skipBlanks_extent (text : List Char) : ∃ front, text = front ++ skipBlanks text ∧ Inner front :=
  ⟨text.takeWhile isBlank, (List.takeWhile_append_dropWhile).symm, inner_takeWhile isPlain_of_isBlank text⟩

theorem hexDigit?_isSome {c : Char} {n : Nat} (h : hexDigit? c = some n) : c ≠ '"' ∧ c ≠ '\\' := by
  constructor <;>
  · rintro rfl
    cases h

theorem hexUnit?_eq_some {a b c d : Char} {n : Nat} (h : hexUnit? a b c d = some n) :
    (a ≠ '"' ∧ a ≠ '\\') ∧ (b ≠ '"' ∧ b ≠ '\\') ∧ (c ≠ '"' ∧ c ≠ '\\') ∧ d ≠ '"' ∧ d ≠ '\\' := by
  obtain ⟨_, ha, h⟩ := Option.bind_eq_some_iff.mp h
  obtain ⟨_, hb, h⟩ := Option.bind_eq_some_iff.mp h
  obtain ⟨_, hc, h⟩ := Option.bind_eq_some_iff.mp h
  obtain ⟨_, hd, -⟩ := Option.bind_eq_some_iff.mp h
  exact ⟨hexDigit?_isSome ha, hexDigit?_isSome hb, hexDigit?_isSome hc, hexDigit?_isSome hd⟩

theorem pieces_extent {text rest : List Char} {found : List Piece} (h : pieces text = some (found, rest)) :
    ∃ string, text = string ++ rest ∧ StringTail string := by
  fun_induction pieces text generalizing found rest with
  | case1 text =>
      cases h
      exact ⟨['"'], rfl, .close⟩
  | case2 a b c d text value tail rest' hpieces hunit ih =>
      cases h
      obtain ⟨string, rfl, hstring⟩ := ih hpieces
      obtain ⟨⟨ha, ha'⟩, ⟨hb, hb'⟩, ⟨hc, hc'⟩, hd, hd'⟩ := hexUnit?_eq_some hunit
      exact ⟨'\\' :: 'u' :: a :: b :: c :: d :: string, rfl,
        .escaped 'u' (.char ha ha' (.char hb hb' (.char hc hc' (.char hd hd' hstring))))⟩
  | case4 letter text _ value tail rest' hpieces hescape ih =>
      cases h
      obtain ⟨string, rfl, hstring⟩ := ih hpieces
      exact ⟨'\\' :: letter :: string, rfl, .escaped letter hstring⟩
  | case7 c text hquote _ hescape _ tail rest' hpieces ih =>
      cases h
      obtain ⟨string, rfl, hstring⟩ := ih hpieces
      refine ⟨c :: string, rfl, .char hquote ?_ hstring⟩
      -- a backslash is taken together with what follows it, and something does
      rintro rfl
      cases hstring with
      | close | escaped | char => exact hescape _ _ rfl rfl
  | _ => cases h

theorem stringBody_extent {text rest : List Char} {found : Option String} (h : stringBody text = some (found, rest)) :
    ∃ string, text = string ++ rest ∧ StringTail string := by
  obtain ⟨⟨parts, rest'⟩, hpieces, hfound⟩ := Option.map_eq_some_iff.mp h
  cases hfound
  exact pieces_extent hpieces

theorem digits_extent (text : List Char) :
    ∃ front, text = front ++ text.dropWhile Char.isDigit ∧ Inner front :=
  ⟨text.takeWhile Char.isDigit, (List.takeWhile_append_dropWhile).symm, inner_takeWhile isPlain_of_isDigit text⟩

theorem wholeDigits_extent {text digits rest : List Char} (h : wholeDigits text = some (digits, rest)) :
    ∃ front, text = front ++ rest ∧ Inner front := by
  unfold wholeDigits at h
  split at h
  · split at h
    · cases h
    · cases h
      exact ⟨['0'], rfl, .char (isPlain_of_isDigit rfl) .nil⟩
  · split at h
    · cases h
    · cases h
      exact digits_extent _

theorem placeDigits_extent {text rest : List Char} {digits : Option (List Char)}
    (h : placeDigits text = some (digits, rest)) : ∃ front, text = front ++ rest ∧ Inner front := by
  unfold placeDigits at h
  split at h
  · split at h
    · cases h
    · rename_i behind _ _
      cases h
      obtain ⟨front, hbehind, hfront⟩ := digits_extent behind
      exact ⟨'.' :: front, congrArg ('.' :: ·) hbehind, .char (by decide) hfront⟩
  · cases h
    exact ⟨[], rfl, .nil⟩

theorem splitSign_extent (text : List Char) :
    ∃ front, text = front ++ (Numeral.splitSign text).2 ∧ Inner front := by
  unfold Numeral.splitSign
  split
  · exact ⟨['-'], rfl, .char (by decide) .nil⟩
  · exact ⟨['+'], rfl, .char (by decide) .nil⟩
  · exact ⟨[], rfl, .nil⟩

theorem exponentPart_extent {text rest : List Char} {exponent : Option Int}
    (h : exponentPart text = some (exponent, rest)) : ∃ front, text = front ++ rest ∧ Inner front := by
  unfold exponentPart at h
  split at h
  · cases h
    exact ⟨[], rfl, .nil⟩
  · rename_i mark text
    split at h
    · rename_i hmark
      obtain ⟨sign, htext, hsign⟩ := splitSign_extent text
      generalize Numeral.splitSign text = split at h htext
      obtain ⟨negative, digits⟩ := split
      dsimp only at h htext
      split at h
      · cases h
      · cases h
        obtain ⟨front, hdigits, hfront⟩ := digits_extent digits
        refine ⟨mark :: (sign ++ front), ?_, .char ?_ (hsign.append hfront)⟩
        · rw [htext, List.cons_append, List.append_assoc, ← hdigits]
        · rcases hmark with rfl | rfl <;> decide
    · cases h
      exact ⟨[], rfl, .nil⟩

theorem number_extent {negative : Bool} {text rest : List Char} {found : Json}
    (h : number negative text = some (found, rest)) : ∃ front, text = front ++ rest ∧ Inner front := by
  obtain ⟨⟨digits, behind⟩, hwhole, h⟩ := Option.bind_eq_some_iff.mp h
  obtain ⟨⟨places, behind'⟩, hplaces, h⟩ := Option.bind_eq_some_iff.mp h
  obtain ⟨⟨exponent, behind''⟩, hexponent, h⟩ := Option.bind_eq_some_iff.mp h
  cases h
  obtain ⟨first, rfl, hfirst⟩ := wholeDigits_extent hwhole
  obtain ⟨second, rfl, hsecond⟩ := placeDigits_extent hplaces
  obtain ⟨third, rfl, hthird⟩ := exponentPart_extent hexponent
  refine ⟨first ++ (second ++ third), ?_, hfirst.append (hsecond.append hthird)⟩
  rw [List.append_assoc, List.append_assoc]

theorem afterWord?_extent {word text rest : List Char} (hword : ∀ c ∈ word, IsPlain c)
    (h : afterWord? word text = some rest) : ∃ front, text = front ++ rest ∧ Inner front := by
  unfold afterWord? at h
  split at h
  · rename_i hprefix
    cases h
    obtain ⟨behind, rfl⟩ := List.isPrefixOf_iff_prefix.mp hprefix
    exact ⟨word, by rw [List.drop_left], .of_forall hword⟩
  · cases h

/-- What a value, the elements of an array and the members of an object take of a text. -/
structure Extents (fuel : Nat) : Prop where
  value : ∀ {text rest : List Char} {found : Json}, Json.value fuel text = some (found, rest) →
    ∃ front, text = front ++ rest ∧ Inner front
  elements : ∀ {text rest : List Char} {found : List Json}, Json.elements fuel text = some (found, rest) →
    ∃ front, text = front ++ rest ∧ Inner front
  members : ∀ {text rest : List Char} {found : List (Option String × Json)},
    Json.members fuel text = some (found, rest) → ∃ front, text = front ++ '\x7d' :: rest ∧ Inner front

theorem value_open (fuel : Nat) (text : List Char) :
    Json.value (fuel + 1) ('\x7b' :: text) = match skipBlanks text with
      | '\x7d' :: rest => some (.object [], rest)
      | rest => (Json.members fuel rest).map fun (found, rest) => (ofMembers found, rest) := rfl

/-- An object is one block. -/
theorem Extents.object {fuel : Nat} (h : Extents fuel) {text rest : List Char} {found : Json}
    (hvalue : Json.value (fuel + 1) ('\x7b' :: text) = some (found, rest)) :
    ∃ inner, text = inner ++ '\x7d' :: rest ∧ Inner inner := by
  obtain ⟨blanks, htext, hblanks⟩ := skipBlanks_extent text
  rw [value_open] at hvalue
  split at hvalue
  · rename_i behind hskip
    cases hvalue
    rw [hskip] at htext
    exact ⟨blanks, htext, hblanks⟩
  · obtain ⟨⟨found, behind⟩, hmembers, heq⟩ := Option.map_eq_some_iff.mp hvalue
    cases heq
    obtain ⟨front, hskip, hfront⟩ := h.members hmembers
    refine ⟨blanks ++ front, ?_, hblanks.append hfront⟩
    rw [htext, hskip, List.append_assoc]

theorem Extents.value_succ {fuel : Nat} (h : Extents fuel) {text rest : List Char} {found : Json}
    (hvalue : Json.value (fuel + 1) text = some (found, rest)) : ∃ front, text = front ++ rest ∧ Inner front := by
  have hobject := hvalue
  unfold Json.value at hvalue
  split at hvalue
  · obtain ⟨behind, hword, heq⟩ := Option.map_eq_some_iff.mp hvalue
    cases heq
    exact afterWord?_extent (by simp [IsPlain]) hword
  · obtain ⟨behind, hword, heq⟩ := Option.map_eq_some_iff.mp hvalue
    cases heq
    exact afterWord?_extent (by simp [IsPlain]) hword
  · obtain ⟨behind, hword, heq⟩ := Option.map_eq_some_iff.mp hvalue
    cases heq
    exact afterWord?_extent (by simp [IsPlain]) hword
  · obtain ⟨⟨found, behind⟩, hstring, heq⟩ := Option.map_eq_some_iff.mp hvalue
    cases heq
    obtain ⟨string, rfl, htail⟩ := stringBody_extent hstring
    refine ⟨'"' :: (string ++ []), by rw [List.append_nil]; rfl, .string htail .nil⟩
  · rename_i text
    obtain ⟨blanks, htext, hblanks⟩ := skipBlanks_extent text
    split at hvalue
    · rename_i behind hskip
      cases hvalue
      rw [hskip] at htext
      refine ⟨'[' :: (blanks ++ [']']), by rw [htext]; simp, ?_⟩
      exact .char (by decide) (hblanks.append (.char (by decide) .nil))
    · obtain ⟨⟨found, behind⟩, helements, heq⟩ := Option.map_eq_some_iff.mp hvalue
      cases heq
      obtain ⟨front, hskip, hfront⟩ := h.elements helements
      refine ⟨'[' :: (blanks ++ front), by rw [htext, hskip]; simp, .char (by decide) (hblanks.append hfront)⟩
  · obtain ⟨inner, rfl, hinner⟩ := h.object hobject
    refine ⟨'\x7b' :: (inner ++ ['\x7d']), by simp, .block hinner .nil⟩
  · obtain ⟨front, rfl, hfront⟩ := number_extent hvalue
    exact ⟨'-' :: front, rfl, .char (by decide) hfront⟩
  · exact number_extent hvalue

theorem Extents.elements_succ {fuel : Nat} (h : Extents fuel) {text rest : List Char} {found : List Json}
    (helements : Json.elements (fuel + 1) text = some (found, rest)) :
    ∃ front, text = front ++ rest ∧ Inner front := by
  unfold Json.elements at helements
  obtain ⟨⟨head, behind⟩, hvalue, hmore⟩ := Option.bind_eq_some_iff.mp helements
  obtain ⟨front, rfl, hfront⟩ := h.value hvalue
  obtain ⟨blanks, hbehind, hblanks⟩ := skipBlanks_extent behind
  dsimp only at hmore
  split at hmore
  · rename_i text' hskip
    obtain ⟨⟨tail, behind'⟩, htail, heq⟩ := Option.bind_eq_some_iff.mp hmore
    cases heq
    obtain ⟨blanks', htext, hblanks'⟩ := skipBlanks_extent text'
    obtain ⟨front', hfront', hinner⟩ := h.elements htail
    refine ⟨front ++ (blanks ++ ',' :: (blanks' ++ front')), ?_,
      hfront.append (hblanks.append (.char (by decide) (hblanks'.append hinner)))⟩
    rw [hbehind, hskip, htext, hfront']
    simp
  · rename_i text' hskip
    cases hmore
    refine ⟨front ++ (blanks ++ [']']), ?_, hfront.append (hblanks.append (.char (by decide) .nil))⟩
    rw [hbehind, hskip]
    simp
  · cases hmore

theorem Extents.members_succ {fuel : Nat} (h : Extents fuel) {text rest : List Char}
    {found : List (Option String × Json)} (hmembers : Json.members (fuel + 1) text = some (found, rest)) :
    ∃ front, text = front ++ '\x7d' :: rest ∧ Inner front := by
  unfold Json.members at hmembers
  split at hmembers
  · rename_i text'
    obtain ⟨⟨name, behind⟩, hname, hcolon⟩ := Option.bind_eq_some_iff.mp hmembers
    obtain ⟨string, rfl, hstring⟩ := stringBody_extent hname
    obtain ⟨blanks, hbehind, hblanks⟩ := skipBlanks_extent behind
    dsimp only at hcolon
    split at hcolon
    · rename_i after hskip
      obtain ⟨⟨head, behind'⟩, hvalue, hmore⟩ := Option.bind_eq_some_iff.mp hcolon
      obtain ⟨blanks', hafter, hblanks'⟩ := skipBlanks_extent after
      obtain ⟨front, hfront, hinner⟩ := h.value hvalue
      obtain ⟨blanks'', hbehind', hblanks''⟩ := skipBlanks_extent behind'
      -- a member: its name, a colon and its value, with blanks between them
      have hmember : Inner ('"' :: (string ++ (blanks ++ ':' :: (blanks' ++ (front ++ blanks''))))) :=
        .string hstring (hblanks.append (.char (by decide) (hblanks'.append (hinner.append hblanks''))))
      rw [hbehind, hskip, hafter, hfront, hbehind']
      dsimp only at hmore
      split at hmore
      · rename_i text'' hskip'
        obtain ⟨⟨tail, behind''⟩, htail, heq⟩ := Option.bind_eq_some_iff.mp hmore
        cases heq
        obtain ⟨blanks₃, htext'', hblanks₃⟩ := skipBlanks_extent text''
        obtain ⟨front', hfront', hinner'⟩ := h.members htail
        refine ⟨_, ?_, hmember.append (.char (c := ',') (by decide) (hblanks₃.append hinner'))⟩
        rw [hskip', htext'', hfront']
        simp
      · rename_i text'' hskip'
        cases hmore
        refine ⟨_, ?_, hmember⟩
        rw [hskip']
        simp
      · cases hmore
    · cases hcolon
  · cases hmembers

/-- A text holds a value and nothing else but blanks. -/
theorem parse?_ofList {text : List Char} {found : Json} :
    parse? (String.ofList text) = some found ↔
      ∃ rest, Json.value (text.length + 1) (skipBlanks text) = some (found, rest) ∧ skipBlanks rest = [] := by
  unfold parse?
  rw [String.toList_ofList]
  constructor
  · intro h
    obtain ⟨⟨found, rest⟩, hvalue, hrest⟩ := Option.bind_eq_some_iff.mp h
    dsimp only at hrest
    split at hrest
    · rename_i hblank
      cases hrest
      exact ⟨rest, hvalue, hblank⟩
    · cases hrest
  · rintro ⟨rest, hvalue, hblank⟩
    refine Option.bind_eq_some_iff.mpr ⟨(found, rest), hvalue, ?_⟩
    dsimp only
    rw [hblank]
    rfl

theorem extents (fuel : Nat) : Extents fuel := by
  induction fuel with
  | zero => exact ⟨fun h => (nomatch h), fun h => (nomatch h), fun h => (nomatch h)⟩
  | succ fuel ih => exact ⟨ih.value_succ, ih.elements_succ, ih.members_succ⟩

end Segue.Json
