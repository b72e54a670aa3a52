import Mathlib
import Segue.Cue.Sheet

/-!
Reading a quoted field. Main statements: a field is read back up to its closing quote when its text
does not end in a backslash, and never when it does: the closing quote is then taken for one of the
text.
-/

namespace Segue.CueSheet

/-- The text in quotes, as characters: a quote is written behind a backslash. -/
def escape (text : List Char) : List Char := text.flatMap fun c => if c = '"' then ['\\', '"'] else [c]

theorem toList_quoted (text : String) : (quoted text).toList = '"' :: (escape text.toList ++ ['"']) := by
  rw [quoted, String.toList_ofList]
  rfl

/-- The text up to the first quote that stands behind no backslash, and what follows that quote. A
quote behind a backslash belongs to the text, without the backslash. -/
def closed? : List Char → Option (List Char × List Char)
  | [] => none
  | '"' :: rest => some ([], rest)
  | '\\' :: '"' :: rest => (closed? rest).map (Prod.map ('"' :: ·) id)
  | c :: rest => (closed? rest).map (Prod.map (c :: ·) id)

/-- The text of a quoted field, and what follows the field. -/
def unquote? : List Char → Option (List Char × List Char)
  | '"' :: rest => closed? rest
  | _ => none

theorem unquote?_quoted (text : String) (rest : List Char) :
    unquote? ((quoted text).toList ++ rest) = closed? (escape text.toList ++ '"' :: rest) := by
  rw [toList_quoted, List.cons_append, List.append_assoc]
  rfl

theorem closed?_cons {c : Char} {rest : List Char} (hquote : c ≠ '"') (hescape : c = '\\' → rest.head? ≠ some '"') :
    closed? (c :: rest) = (closed? rest).map (Prod.map (c :: ·) id) := by
  rw [closed?.eq_def]
  split
  · rename_i heq
    cases heq
  · rename_i heq
    exact absurd (List.cons.inj heq).1 hquote
  · rename_i heq
    obtain ⟨rfl, rfl⟩ := List.cons.inj heq
    exact absurd rfl (hescape rfl)
  · rename_i heq
    obtain ⟨rfl, rfl⟩ := List.cons.inj heq
    rfl

/-- No quote stands at the front of a text that is not empty. -/
theorem head?_escape (c : Char) (text rest : List Char) : (escape (c :: text) ++ rest).head? ≠ some '"' := by
  rw [escape, List.flatMap_cons]
  split
  · simp
  · simpa using ‹c ≠ '"'›

/-- A character in front of a text is read as itself when it is no backslash right before the
closing quote. -/
theorem closed?_escape_cons {c : Char} {text : List Char} (rest : List Char) (h : c = '\\' → text ≠ []) :
    closed? (escape (c :: text) ++ '"' :: rest) =
      (closed? (escape text ++ '"' :: rest)).map (Prod.map (c :: ·) id) := by
  by_cases hquote : c = '"'
  · subst hquote
    rfl
  · have hfront : escape (c :: text) = c :: escape text := by
      rw [escape, List.flatMap_cons, if_neg hquote]
      rfl
    rw [hfront, List.cons_append]
    refine closed?_cons hquote fun hbackslash => ?_
    obtain ⟨next, text, rfl⟩ := List.exists_cons_of_ne_nil (h hbackslash)
    exact head?_escape next text _

/-- A text that does not end in a backslash is read back up to its closing quote. -/
theorem closed?_escape {text : List Char} (h : text.getLast? ≠ some '\\') (rest : List Char) :
    closed? (escape text ++ '"' :: rest) = some (text, rest) := by
  induction text with
  | nil => rfl
  | cons c text ih =>
      rw [closed?_escape_cons rest]
      · have hlast : text.getLast? ≠ some '\\' := by
          rcases List.eq_nil_or_concat text with rfl | ⟨front, last, rfl⟩
          · exact nofun
          · simpa [List.getLast?_cons] using h
        rw [ih hlast]
        rfl
      · rintro rfl rfl
        exact h rfl

/-- Behind a text that ends in a backslash the closing quote is taken for one of the text. -/
theorem closed?_escape_concat (front rest : List Char) :
    closed? (escape (front ++ ['\\']) ++ '"' :: rest) = (closed? rest).map (Prod.map (front ++ '"' :: ·) id) := by
  induction front with
  | nil => rfl
  | cons c front ih =>
      rw [List.cons_append, closed?_escape_cons rest fun _ => List.append_ne_nil_of_right_ne_nil _ (by simp), ih,
        Option.map_map]
      rfl

/-- A quoted field is read back when its text does not end in a backslash, and only then. -/
theorem unquote?_quoted_eq_some_iff (text : String) (rest : List Char) :
    unquote? ((quoted text).toList ++ rest) = some (text.toList, rest) ↔ text.toList.getLast? ≠ some '\\' := by
  rw [unquote?_quoted]
  constructor
  · intro hread hlast
    obtain ⟨front, htext⟩ := List.getLast?_eq_some_iff.mp hlast
    rw [htext, closed?_escape_concat] at hread
    obtain ⟨⟨text', rest'⟩, -, hsame⟩ := Option.map_eq_some_iff.mp hread
    -- where the backslash was, a quote has been read
    have hquote : '"' :: text' = ['\\'] := List.append_cancel_left (congrArg Prod.fst hsame)
    cases hquote
  · exact fun hlast => closed?_escape hlast rest

example : unquote? (quoted "\"Now\\Then\"").toList = some ("\"Now\\Then\"".toList, []) ∧
    unquote? (quoted "Now\\").toList = none := by decide

end Segue.CueSheet
