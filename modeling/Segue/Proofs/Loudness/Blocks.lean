import Segue.Loudness.Block

/-!
Texts with blocks as a grammar, beside the scan that finds the last block. Main statements: the scan
ends outside every block just when the text is made of whole blocks and other characters; a block
that stands behind such a text is found whole, and the characters that follow it do not matter
unless they open another one.
-/

namespace Segue.Block

/-- A string behind its opening quote, its closing one included. -/
inductive StringTail : List Char → Prop
  | close : StringTail ['"']
  | escaped (c : Char) {rest : List Char} (h : StringTail rest) : StringTail ('\\' :: c :: rest)
  | char {c : Char} {rest : List Char} (hquote : c ≠ '"') (hescape : c ≠ '\\') (h : StringTail rest) :
      StringTail (c :: rest)

def IsPlain (c : Char) : Prop := c ≠ '\x7b' ∧ c ≠ '\x7d' ∧ c ≠ '"'

instance (c : Char) : Decidable (IsPlain c) := inferInstanceAs (Decidable (_ ∧ _ ∧ _))

/-- What may stand between the braces of a block: strings, blocks and plain characters. -/
inductive Inner : List Char → Prop
  | nil : Inner []
  | char {c : Char} {rest : List Char} (hplain : IsPlain c) (h : Inner rest) : Inner (c :: rest)
  | string {text rest : List Char} (htext : StringTail text) (h : Inner rest) : Inner ('"' :: (text ++ rest))
  | block {text rest : List Char} (htext : Inner text) (h : Inner rest) :
      Inner ('\x7b' :: (text ++ '\x7d' :: rest))

/-- A text that leaves no block open: outside of blocks, quotes and closing braces are like any
other character. -/
inductive Closed : List Char → Prop
  | nil : Closed []
  | char {c : Char} {rest : List Char} (hopen : c ≠ '\x7b') (h : Closed rest) : Closed (c :: rest)
  | block {text rest : List Char} (htext : Inner text) (h : Closed rest) :
      Closed ('\x7b' :: (text ++ '\x7d' :: rest))

theorem Inner.append {text rest : List Char} (h : Inner text) (hrest : Inner rest) : Inner (text ++ rest) := by
  induction h with
  | nil => exact hrest
  | char hplain _ ih => exact .char hplain ih
  | string htext _ ih =>
      rw [List.cons_append, List.append_assoc]
      exact .string htext ih
  | block htext _ _ ih =>
      rw [List.cons_append, List.append_assoc, List.cons_append]
      exact .block htext ih

theorem Inner.of_forall {text : List Char} (h : ∀ c ∈ text, IsPlain c) : Inner text := by
  induction text with
  | nil => exact .nil
  | cons c text ih => exact .char (h c List.mem_cons_self) (ih fun d hd => h d (List.mem_cons_of_mem _ hd))

section

variable (depth : Nat) (isEscaped : Bool) (current : List Char) (last : Option (List Char))

theorem step_escaped (c : Char) :
    Scan.step ⟨depth, true, true, current, last⟩ c = ⟨depth, true, false, c :: current, last⟩ := rfl

theorem step_inString {c : Char} (hquote : c ≠ '"') (hescape : c ≠ '\\') :
    Scan.step ⟨depth, true, false, current, last⟩ c = ⟨depth, true, false, c :: current, last⟩ := by
  simp [Scan.step, hquote, hescape]

theorem step_escape :
    Scan.step ⟨depth, true, false, current, last⟩ '\\' = ⟨depth, true, true, '\\' :: current, last⟩ := rfl

theorem step_closeString :
    Scan.step ⟨depth, true, false, current, last⟩ '"' = ⟨depth, false, false, '"' :: current, last⟩ := rfl

theorem step_plain {c : Char} (hplain : IsPlain c) :
    Scan.step ⟨depth + 1, false, isEscaped, current, last⟩ c = ⟨depth + 1, false, isEscaped, c :: current, last⟩ := by
  obtain ⟨hopen, hclose, hquote⟩ := hplain
  simp [Scan.step, hopen, hclose, hquote]

theorem step_openString :
    Scan.step ⟨depth + 1, false, isEscaped, current, last⟩ '"' =
      ⟨depth + 1, true, isEscaped, '"' :: current, last⟩ := rfl

theorem step_open :
    Scan.step ⟨depth + 1, false, isEscaped, current, last⟩ '\x7b' =
      ⟨depth + 2, false, isEscaped, '\x7b' :: current, last⟩ := rfl

theorem step_close :
    Scan.step ⟨depth + 2, false, isEscaped, current, last⟩ '\x7d' =
      ⟨depth + 1, false, isEscaped, '\x7d' :: current, last⟩ := by
  simp [Scan.step]

theorem step_openOutermost :
    Scan.step ⟨0, false, isEscaped, current, last⟩ '\x7b' = ⟨1, false, isEscaped, ['\x7b'], last⟩ := rfl

theorem step_closeOutermost :
    Scan.step ⟨1, false, isEscaped, current, last⟩ '\x7d' =
      ⟨0, false, isEscaped, [], some ('\x7d' :: current).reverse⟩ := rfl

theorem step_outside {c : Char} (hopen : c ≠ '\x7b') :
    Scan.step ⟨0, false, isEscaped, current, last⟩ c = ⟨0, false, isEscaped, current, last⟩ := by
  simp [Scan.step, hopen]

variable {text rest : List Char}

theorem scan_stringTail (h : StringTail text) (current : List Char) :
    text.foldl Scan.step ⟨depth, true, false, current, last⟩ =
      ⟨depth, false, false, text.reverse ++ current, last⟩ := by
  induction h generalizing current with
  | close => rfl
  | escaped c _ ih =>
      rw [List.foldl_cons, List.foldl_cons, step_escape, step_escaped, ih]
      simp
  | char hquote hescape _ ih =>
      rw [List.foldl_cons, step_inString depth current last hquote hescape, ih]
      simp

theorem scan_inner (h : Inner text) (depth : Nat) (current : List Char) :
    text.foldl Scan.step ⟨depth + 1, false, false, current, last⟩ =
      ⟨depth + 1, false, false, text.reverse ++ current, last⟩ := by
  induction h generalizing depth current with
  | nil => rfl
  | char hplain _ ih =>
      rw [List.foldl_cons, step_plain depth false current last hplain, ih]
      simp
  | string htext _ ih =>
      rw [List.foldl_cons, step_openString, List.foldl_append, scan_stringTail _ _ htext, ih]
      simp
  | block _ _ ihText ih =>
      rw [List.foldl_cons, step_open, List.foldl_append, ihText, List.foldl_cons, step_close, ih]
      simp

theorem scan_block (h : Inner text) :
    ('\x7b' :: (text ++ ['\x7d'])).foldl Scan.step ⟨0, false, false, [], last⟩ =
      ⟨0, false, false, [], some ('\x7b' :: (text ++ ['\x7d']))⟩ := by
  rw [List.foldl_cons, step_openOutermost, List.foldl_append, scan_inner last h, List.foldl_cons,
    step_closeOutermost]
  simp

theorem scan_closed (h : Closed text) (last : Option (List Char)) :
    ∃ last', text.foldl Scan.step ⟨0, false, false, [], last⟩ = ⟨0, false, false, [], last'⟩ := by
  induction h generalizing last with
  | nil => exact ⟨last, rfl⟩
  | char hopen _ ih =>
      rw [List.foldl_cons, step_outside false [] last hopen]
      exact ih last
  | @block text rest htext _ ih =>
      rw [← List.singleton_append (l := rest), ← List.append_assoc, ← List.cons_append, List.foldl_append,
        scan_block last htext]
      exact ih _

theorem scan_unopened (h : ∀ c ∈ text, c ≠ '\x7b') :
    text.foldl Scan.step ⟨0, false, isEscaped, current, last⟩ = ⟨0, false, isEscaped, current, last⟩ := by
  induction text with
  | nil => rfl
  | cons c text ih =>
      rw [List.foldl_cons, step_outside isEscaped current last (h c List.mem_cons_self)]
      exact ih fun d hd => h d (List.mem_cons_of_mem _ hd)

end

/-- A block is found behind a text that leaves none open. -/
theorem last?_of_closed {front text rest : List Char} (hfront : Closed front) (htext : Inner text)
    (hrest : ∀ c ∈ rest, c ≠ '\x7b') :
    last? (front ++ '\x7b' :: (text ++ ['\x7d']) ++ rest) = some ('\x7b' :: (text ++ ['\x7d'])) := by
  obtain ⟨last, hlast⟩ := scan_closed hfront none
  unfold last?
  rw [List.foldl_append, List.foldl_append]
  rw [hlast, scan_block last htext, scan_unopened _ _ _ hrest]

/-- What is left of a text inside so many blocks, when it closes them all. -/
inductive Closes : Nat → List Char → Prop
  | outside {text : List Char} (h : Closed text) : Closes 0 text
  | inside {depth : Nat} {text rest : List Char} (htext : Inner text) (h : Closes depth rest) :
      Closes (depth + 1) (text ++ '\x7d' :: rest)

namespace Closes

variable {depth : Nat} {text rest : List Char}

theorem char {c : Char} (hplain : IsPlain c) (h : Closes (depth + 1) rest) : Closes (depth + 1) (c :: rest) := by
  cases h with
  | inside htext h => exact .inside (.char hplain htext) h

theorem string (htext : StringTail text) (h : Closes (depth + 1) rest) :
    Closes (depth + 1) ('"' :: (text ++ rest)) := by
  cases h with
  | @inside _ inner rest hinner h =>
      rw [← List.append_assoc, ← List.cons_append]
      exact .inside (.string htext hinner) h

/-- A block that is opened is closed before those around it. -/
theorem block (h : Closes (depth + 1) rest) : Closes depth ('\x7b' :: rest) := by
  cases h with
  | @inside _ text rest htext h =>
      cases h with
      | outside h => exact .outside (.block htext h)
      | @inside depth' inner rest hinner h =>
          have hsplit : '\x7b' :: (text ++ '\x7d' :: (inner ++ '\x7d' :: rest)) =
              '\x7b' :: (text ++ '\x7d' :: inner) ++ '\x7d' :: rest := by simp
          rw [hsplit]
          exact .inside (.block htext hinner) h

end Closes

/-- Where the scan can stand: a string is inside a block, and an escape inside a string. -/
inductive Scan.IsSound : Scan → Prop
  | outside (current : List Char) (last : Option (List Char)) : IsSound ⟨0, false, false, current, last⟩
  | inside (depth : Nat) (current : List Char) (last : Option (List Char)) :
      IsSound ⟨depth + 1, false, false, current, last⟩
  | inString (depth : Nat) (isEscaped : Bool) (current : List Char) (last : Option (List Char)) :
      IsSound ⟨depth + 1, true, isEscaped, current, last⟩

/-- What then is left of a text that ends outside of every block. -/
def Scan.Leaves (scan : Scan) (text : List Char) : Prop :=
  match scan.inString, scan.escaped with
  | false, _ => Closes scan.depth text
  | true, false => ∃ string rest, text = string ++ rest ∧ StringTail string ∧ Closes scan.depth rest
  | true, true => ∃ c string rest, text = c :: (string ++ rest) ∧ StringTail string ∧ Closes scan.depth rest

/-- Each character leads from where the scan can stand to where it can stand, and what is left
behind it makes up what was left before. -/
theorem Scan.IsSound.step {scan : Scan} (h : scan.IsSound) (c : Char) :
    (scan.step c).IsSound ∧ ∀ {text : List Char}, (scan.step c).Leaves text → scan.Leaves (c :: text) := by
  cases h with
  | outside current last =>
      by_cases hopen : c = '\x7b'
      · subst hopen
        exact ⟨.inside 0 _ last, Closes.block⟩
      · rw [step_outside false current last hopen]
        refine ⟨.outside current last, fun hleaves => ?_⟩
        cases hleaves with
        | outside hclosed => exact .outside (.char hopen hclosed)
  | inside depth current last =>
      by_cases hopen : c = '\x7b'
      · subst hopen
        exact ⟨.inside (depth + 1) _ last, Closes.block⟩
      by_cases hclose : c = '\x7d'
      · subst hclose
        cases depth with
        | zero => exact ⟨.outside _ _, fun hleaves => Closes.inside .nil hleaves⟩
        | succ depth =>
            rw [step_close]
            exact ⟨.inside depth _ last, fun hleaves => Closes.inside .nil hleaves⟩
      by_cases hquote : c = '"'
      · subst hquote
        refine ⟨.inString depth false _ last, ?_⟩
        rintro _ ⟨string, rest, rfl, hstring, hcloses⟩
        exact hcloses.string hstring
      · have hplain : IsPlain c := ⟨hopen, hclose, hquote⟩
        rw [step_plain depth false current last hplain]
        exact ⟨.inside depth _ last, Closes.char hplain⟩
  | inString depth isEscaped current last =>
      cases isEscaped with
      | true =>
          refine ⟨.inString depth false _ last, ?_⟩
          rintro _ ⟨string, rest, rfl, hstring, hcloses⟩
          exact ⟨c, string, rest, rfl, hstring, hcloses⟩
      | false =>
          by_cases hescape : c = '\\'
          · subst hescape
            refine ⟨.inString depth true _ last, ?_⟩
            rintro _ ⟨d, string, rest, rfl, hstring, hcloses⟩
            exact ⟨'\\' :: d :: string, rest, rfl, .escaped d hstring, hcloses⟩
          by_cases hquote : c = '"'
          · subst hquote
            exact ⟨.inside depth _ last, fun hleaves => ⟨['"'], _, rfl, .close, hleaves⟩⟩
          · rw [step_inString (depth + 1) current last hquote hescape]
            refine ⟨.inString depth false _ last, ?_⟩
            rintro _ ⟨string, rest, rfl, hstring, hcloses⟩
            exact ⟨c :: string, rest, rfl, .char hquote hescape hstring, hcloses⟩

theorem Scan.IsSound.run {scan : Scan} (h : scan.IsSound) (text : List Char) : (text.foldl Scan.step scan).IsSound := by
  induction text generalizing scan with
  | nil => exact h
  | cons c text ih => exact ih (h.step c).1

theorem Scan.IsSound.leaves {scan : Scan} (h : scan.IsSound) {text : List Char}
    (hend : (text.foldl Scan.step scan).depth = 0) : scan.Leaves text := by
  induction text generalizing scan with
  | nil =>
      cases h with
      | outside => exact .outside .nil
      | inside | inString => cases hend
  | cons c text ih =>
      obtain ⟨hsound, hleaves⟩ := h.step c
      exact hleaves (ih hsound hend)

theorem isSound_empty : Scan.IsSound {} := .outside [] none

/-- The scan ends outside every block just when the text leaves none open. -/
theorem closed_iff {text : List Char} : Closed text ↔ (text.foldl Scan.step {}).depth = 0 := by
  constructor
  · intro h
    obtain ⟨last, hlast⟩ := scan_closed h none
    exact congrArg Scan.depth hlast
  · intro h
    cases isSound_empty.leaves h with
    | outside hclosed => exact hclosed

instance (text : List Char) : Decidable (Closed text) := decidable_of_iff _ closed_iff.symm

end Segue.Block
