import Segue.Json.Reader
import Segue.Json.Writer

/-!
Strings as they are written. Main statement: a string that has been put in quotes is read back as it is.
-/

namespace Segue.Json

theorem hexUnit?_control (n : Fin 32) : hexUnit? '0' '0' (hexChar (n / 16)) (hexChar (n % 16)) = some n.val := by
  revert n
  decide

theorem pieces_char {c : Char} (hquote : c ≠ '"') (hescape : c ≠ '\\') (hcontrol : ¬ c.toNat < 0x20)
    (text : List Char) :
    pieces (c :: text) = (pieces text).map fun found => (.char c :: found.1, found.2) := by
  rw [pieces.eq_def]
  split
  · rename_i heq
    exact absurd (List.cons.inj heq).1 hquote
  · rename_i heq
    exact absurd (List.cons.inj heq).1 hescape
  · rename_i heq
    exact absurd (List.cons.inj heq).1 hescape
  · rename_i heq
    obtain ⟨rfl, rfl⟩ := List.cons.inj heq
    rw [if_neg hcontrol]
    cases pieces text <;> rfl
  · rename_i heq
    cases heq

theorem pieces_unit (a b c d : Char) {value : Nat} (h : hexUnit? a b c d = some value) (text : List Char) :
    pieces ('\\' :: 'u' :: a :: b :: c :: d :: text) =
      (pieces text).map fun found => (.unit value :: found.1, found.2) := by
  rw [pieces, h]
  cases pieces text <;> rfl

theorem pieces_escaped {letter c : Char} (hletter : shortEscape? letter = some c) (text : List Char) :
    pieces ('\\' :: letter :: text) = (pieces text).map fun found => (.char c :: found.1, found.2) := by
  have hne : letter ≠ 'u' := by
    rintro rfl
    cases hletter
  rw [pieces.eq_def]
  split
  · rename_i heq
    cases heq
  · rename_i heq
    exact absurd (List.cons.inj (List.cons.inj heq).2).1 hne
  · rename_i heq
    obtain ⟨-, htail⟩ := List.cons.inj heq
    obtain ⟨rfl, rfl⟩ := List.cons.inj htail
    rw [hletter]
    cases pieces text <;> rfl
  · rename_i hother heq
    obtain ⟨rfl, rfl⟩ := List.cons.inj heq
    exact absurd rfl (hother _ _ rfl)
  · rename_i heq
    cases heq

theorem charsOfPieces_unit {c : Char} (h : c.toNat < 0x20) (rest : List Piece) :
    charsOfPieces (.unit c.toNat :: rest) = (charsOfPieces rest).map (c :: ·) := by
  rw [charsOfPieces.eq_def]
  dsimp only
  rw [if_neg (by omega), if_neg (by omega), Char.ofNat_toNat]

/-- A character is read back as the one piece that stands for it. -/
theorem exists_piece (c : Char) :
    ∃ piece, (∀ text, pieces (escapeChar c ++ text) = (pieces text).map fun found => (piece :: found.1, found.2)) ∧
      ∀ rest, charsOfPieces (piece :: rest) = (charsOfPieces rest).map (c :: ·) := by
  unfold escapeChar
  split
  · exact ⟨.char '"', pieces_escaped rfl, fun _ => rfl⟩
  · exact ⟨.char '\\', pieces_escaped rfl, fun _ => rfl⟩
  · exact ⟨.char '\x08', pieces_escaped rfl, fun _ => rfl⟩
  · exact ⟨.char '\x0c', pieces_escaped rfl, fun _ => rfl⟩
  · exact ⟨.char '\n', pieces_escaped rfl, fun _ => rfl⟩
  · exact ⟨.char '\r', pieces_escaped rfl, fun _ => rfl⟩
  · exact ⟨.char '\t', pieces_escaped rfl, fun _ => rfl⟩
  · rename_i hquote hescape _ _ _ _ _
    split
    · rename_i hcontrol
      exact ⟨.unit c.toNat, pieces_unit '0' '0' _ _ (hexUnit?_control ⟨c.toNat, hcontrol⟩), charsOfPieces_unit hcontrol⟩
    · rename_i hcontrol
      exact ⟨.char c, pieces_char hquote hescape hcontrol, fun _ => rfl⟩

theorem exists_pieces (text rest : List Char) :
    ∃ found, pieces (text.flatMap escapeChar ++ '"' :: rest) = some (found, rest) ∧
      charsOfPieces found = some text := by
  induction text with
  | nil => exact ⟨[], rfl, rfl⟩
  | cons c text ih =>
      obtain ⟨found, hpieces, hchars⟩ := ih
      obtain ⟨piece, hpiece, hchar⟩ := exists_piece c
      refine ⟨piece :: found, ?_, ?_⟩
      · rw [List.flatMap_cons, List.append_assoc, hpiece, hpieces]
        rfl
      · rw [hchar, hchars]
        rfl

/-- **Strings** are read back as they are. -/
theorem stringBody_quote (text : String) (rest : List Char) :
    ∃ body, (quote text).toList = '"' :: body ∧ stringBody (body ++ rest) = some (some text, rest) := by
  obtain ⟨found, hpieces, hchars⟩ := exists_pieces text.toList rest
  refine ⟨text.toList.flatMap escapeChar ++ ['"'], by rw [quote, String.toList_ofList]; rfl, ?_⟩
  rw [List.append_assoc, List.singleton_append, stringBody, hpieces]
  change some ((charsOfPieces found).map String.ofList, rest) = _
  rw [hchars, Option.map_some, String.ofList_toList]

end Segue.Json
