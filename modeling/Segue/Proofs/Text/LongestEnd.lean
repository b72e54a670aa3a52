import Mathlib.Data.List.Infix
import Segue.DiagnosticTail

/-!
What is kept of a text that comes piece by piece. Main statement: after every piece that is the
longest end of the whole text that starts at a character and fits, so that it makes no difference
where the text has been cut; and the search for a place to cut at ends inside of the text.
-/

namespace Segue.DiagnosticTail

attribute [ext] DiagnosticTail

def utf8 (chars : List Char) : List UInt8 := (String.ofList chars).toUTF8.data.toList

/-- A byte that starts no character. -/
def IsContinuation (byte : UInt8) : Prop := 0x80 ≤ byte.toNat ∧ byte.toNat < 0xC0

/-- A place where a text may be cut: at one of its ends, or before a byte that starts a character. -/
def IsBoundary (bytes : List UInt8) (place : Nat) : Prop :=
  place = 0 ∨ place = bytes.length ∨ ∃ byte, bytes[place]? = some byte ∧ ¬ IsContinuation byte

/-- The search for a place to cut at, byte by byte. -/
inductive Finds (bytes : List UInt8) : Nat → Nat → Prop
  | here {place : Nat} (h : IsBoundary bytes place) : Finds bytes place place
  | next {place found : Nat} (h : ¬ IsBoundary bytes place) (hmore : Finds bytes (place + 1) found) :
      Finds bytes place found

/-- The longest end of some bytes that fits and does not start inside of a character. -/
structure IsLongestEnd (capacity : Nat) (bytes kept : List UInt8) : Prop where
  fits : kept.length ≤ capacity
  boundary : ∃ place, IsBoundary bytes place ∧ kept = bytes.drop place
  longest : ∀ place, IsBoundary bytes place → (bytes.drop place).length ≤ capacity → bytes.drop place <:+ kept

theorem utf8_eq (chars : List Char) : utf8 chars = chars.flatMap String.utf8EncodeChar := by
  simp [utf8, List.utf8Encode]

@[simp]
theorem utf8_nil : utf8 [] = [] := by rw [utf8_eq, List.flatMap_nil]

theorem utf8_cons (c : Char) (chars : List Char) : utf8 (c :: chars) = String.utf8EncodeChar c ++ utf8 chars := by
  simp only [utf8_eq, List.flatMap_cons]

@[simp]
theorem utf8_append (front behind : List Char) : utf8 (front ++ behind) = utf8 front ++ utf8 behind := by
  simp only [utf8_eq, List.flatMap_append]

theorem utf8_suffix {behind chars : List Char} (h : behind <:+ chars) : utf8 behind <:+ utf8 chars := by
  obtain ⟨front, rfl⟩ := h
  exact ⟨utf8 front, (utf8_append front behind).symm⟩

theorem byteCount_eq (chars : List Char) : byteCount chars = (utf8 chars).length := by
  have hfold : ∀ count, chars.foldl (fun count c => count + c.utf8Size) count = count + (utf8 chars).length := by
    induction chars with
    | nil => simp
    | cons c chars ih =>
        intro count
        rw [List.foldl_cons, ih, utf8_cons, List.length_append, String.length_utf8EncodeChar, Nat.add_assoc]
  exact (hfold 0).trans (Nat.zero_add _)

theorem isContinuation_ofNat (value : Nat) : IsContinuation (UInt8.ofNat (value % 0x40 + 0x80)) := by
  unfold IsContinuation
  simp only [UInt8.toNat_ofNat']
  omega

theorem exists_utf8EncodeChar_eq_cons (c : Char) : ∃ lead behind, String.utf8EncodeChar c = lead :: behind ∧
    ¬ IsContinuation lead ∧ ∀ byte ∈ behind, IsContinuation byte := by
  unfold String.utf8EncodeChar
  dsimp only
  split_ifs
  all_goals
    refine ⟨_, _, rfl, ?_, ?_⟩
    · unfold IsContinuation
      simp only [UInt8.toNat_ofNat']
      omega
    · simp only [List.mem_cons, List.not_mem_nil, or_false, forall_eq_or_imp, forall_eq, isContinuation_ofNat, and_self,
        IsEmpty.forall_iff, implies_true]

theorem isBoundary_append {front bytes : List UInt8} {place : Nat} (hplace : place ≠ 0)
    (h : IsBoundary (front ++ bytes) (front.length + place)) : IsBoundary bytes place := by
  rcases h with hzero | hlength | ⟨byte, hbyte, hstarts⟩
  · omega
  · rw [List.length_append] at hlength
    exact .inr (.inl (Nat.add_left_cancel hlength))
  · rw [List.getElem?_append_right (Nat.le_add_right _ _), Nat.add_sub_cancel_left] at hbyte
    exact .inr (.inr ⟨byte, hbyte, hstarts⟩)

/-- A text may be cut between any two characters, and nowhere else. -/
theorem isBoundary_utf8_iff (chars : List Char) (place : Nat) :
    IsBoundary (utf8 chars) place ↔ ∃ front behind, chars = front ++ behind ∧ (utf8 front).length = place := by
  constructor
  · intro h
    induction chars generalizing place with
    | nil =>
        refine ⟨[], [], rfl, ?_⟩
        rcases h with rfl | rfl | ⟨byte, hbyte, -⟩
        · rfl
        · rfl
        · simp at hbyte
    | cons c chars ih =>
        obtain ⟨lead, inside, hchar, -, hinside⟩ := exists_utf8EncodeChar_eq_cons c
        rw [utf8_cons] at h
        by_cases hzero : place = 0
        · exact ⟨[], c :: chars, rfl, by rw [hzero, utf8_nil, List.length_nil]⟩
        by_cases hlt : place < (String.utf8EncodeChar c).length
        · -- inside of the first character
          obtain ⟨place, rfl⟩ := Nat.exists_eq_succ_of_ne_zero hzero
          rcases h with hzero | hlength | ⟨byte, hbyte, hstarts⟩
          · exact absurd hzero (Nat.succ_ne_zero place)
          · rw [List.length_append] at hlength
            omega
          · rw [List.getElem?_append_left hlt, hchar, List.getElem?_cons_succ] at hbyte
            exact absurd (hinside byte (List.mem_of_getElem? hbyte)) hstarts
        · obtain ⟨more, rfl⟩ := Nat.exists_eq_add_of_le (Nat.le_of_not_lt hlt)
          obtain ⟨front, behind, rfl, rfl⟩ : ∃ front behind, chars = front ++ behind ∧ (utf8 front).length = more := by
            by_cases hmore : more = 0
            · exact ⟨[], chars, rfl, by rw [hmore, utf8_nil, List.length_nil]⟩
            · exact ih more (isBoundary_append hmore h)
          exact ⟨c :: front, behind, rfl, by rw [utf8_cons, List.length_append]⟩
  · rintro ⟨front, behind, rfl, rfl⟩
    rw [utf8_append]
    cases behind with
    | nil => exact .inr (.inl (by simp))
    | cons c behind =>
        obtain ⟨lead, inside, hchar, hstarts, -⟩ := exists_utf8EncodeChar_eq_cons c
        refine .inr (.inr ⟨lead, ?_, hstarts⟩)
        rw [utf8_cons, hchar, List.getElem?_append_right (Nat.le_refl _), Nat.sub_self]
        rfl

theorem finds_of_forall {bytes : List UInt8} {place found : Nat} (hle : place ≤ found) (hfound : IsBoundary bytes found)
    (hnone : ∀ between, place ≤ between → between < found → ¬ IsBoundary bytes between) :
    Finds bytes place found := by
  induction hdistance : found - place generalizing place with
  | zero =>
      obtain rfl : place = found := by omega
      exact .here hfound
  | succ distance ih =>
      refine .next (hnone place (Nat.le_refl _) (by omega)) (ih (by omega) ?_ (by omega))
      exact fun between hbetween => hnone between (by omega)

/-- The longest end of a text that fits, in characters. -/
structure IsLongest (capacity : Nat) (whole kept : List Char) : Prop where
  isSuffix : kept <:+ whole
  fits : (utf8 kept).length ≤ capacity
  longest : ∀ other, other <:+ whole → (utf8 other).length ≤ capacity → other <:+ kept

namespace IsLongest

variable {capacity : Nat} {whole kept more : List Char}

theorem unique {other : List Char} (h : IsLongest capacity whole kept) (h' : IsLongest capacity whole other) :
    kept = other :=
  (h'.longest kept h.isSuffix h.fits).eq_of_length_le (h.longest other h'.isSuffix h'.fits).length_le

/-- What has been dropped before could not be kept later. -/
theorem append {behind : List Char} (h : IsLongest capacity whole kept)
    (hmore : IsLongest capacity (kept ++ behind) more) : IsLongest capacity (whole ++ behind) more := by
  have hkept : kept ++ behind <:+ whole ++ behind := List.suffix_append_self_iff.mpr h.isSuffix
  refine ⟨hmore.isSuffix.trans hkept, hmore.fits, fun other hother hfits => ?_⟩
  rcases List.suffix_or_suffix_of_suffix hother hkept with hshort | ⟨front, rfl⟩
  · exact hmore.longest other hshort hfits
  · -- an end that goes beyond what is left has to start in what has been dropped, where nothing fits
    rw [← List.append_assoc] at hother hfits
    rw [utf8_append, List.length_append] at hfits
    have hfront := h.longest (front ++ kept) (List.suffix_append_self_iff.mp hother) (by omega)
    obtain rfl : front = [] := by
      have hlength := hfront.length_le
      rw [List.length_append] at hlength
      exact List.length_eq_zero_iff.mp (by omega)
    exact hmore.longest _ (List.suffix_refl _) (by simpa using hfits)

theorem dropBytes (capacity : Nat) (chars : List Char) :
    IsLongest capacity chars (dropBytes (byteCount chars - capacity) chars) := by
  simp only [byteCount_eq]
  induction chars with
  | nil =>
      simp only [utf8_nil, List.length_nil, Nat.zero_sub, DiagnosticTail.dropBytes]
      exact ⟨List.suffix_refl _, Nat.zero_le _, fun other hother _ => hother⟩
  | cons c chars ih =>
      by_cases hfits : (utf8 (c :: chars)).length ≤ capacity
      · rw [Nat.sub_eq_zero_of_le hfits, DiagnosticTail.dropBytes]
        exact ⟨List.suffix_refl _, hfits, fun other hother _ => hother⟩
      · obtain ⟨excess, hexcess⟩ := Nat.exists_eq_add_one_of_ne_zero (Nat.sub_ne_zero_of_lt (Nat.lt_of_not_le hfits))
        have hless : excess + 1 - c.utf8Size = (utf8 chars).length - capacity := by
          rw [utf8_cons, List.length_append, String.length_utf8EncodeChar] at hexcess
          omega
        rw [hexcess, DiagnosticTail.dropBytes, hless]
        refine ⟨ih.isSuffix.trans (List.suffix_cons c chars), ih.fits, fun other hother hother' => ?_⟩
        rcases List.suffix_cons_iff.mp hother with rfl | hother
        · exact absurd hother' hfits
        · exact ih.longest other hother hother'

theorem push (tail : DiagnosticTail) (chunk : List Char) :
    IsLongest tail.capacity (tail.chars ++ chunk) (tail.push chunk).chars :=
  dropBytes tail.capacity (tail.chars ++ chunk)

theorem isLongestEnd (h : IsLongest capacity whole kept) : IsLongestEnd capacity (utf8 whole) (utf8 kept) := by
  obtain ⟨⟨front, rfl⟩, hfits, hlongest⟩ := h
  refine ⟨hfits, ⟨_, (isBoundary_utf8_iff _ _).mpr ⟨front, kept, rfl, rfl⟩, by simp⟩, fun place hplace hother => ?_⟩
  obtain ⟨other, behind, hwhole, rfl⟩ := (isBoundary_utf8_iff _ _).mp hplace
  rw [hwhole, utf8_append, List.drop_left] at hother ⊢
  exact utf8_suffix (hlongest behind ⟨other, hwhole.symm⟩ hother)

/-- The search for a place to cut at ends where what is kept begins. -/
theorem exists_finds (h : IsLongest capacity whole kept) : ∃ found, found ≤ (utf8 whole).length ∧
    Finds (utf8 whole) ((utf8 whole).length - capacity) found ∧ utf8 kept = (utf8 whole).drop found := by
  obtain ⟨⟨front, rfl⟩, hfits, hlongest⟩ := h
  have hlength : (utf8 (front ++ kept)).length = (utf8 front).length + (utf8 kept).length := by simp
  refine ⟨(utf8 front).length, by omega, finds_of_forall (by omega) ?_ fun between hle hlt hbetween => ?_, by simp⟩
  · exact (isBoundary_utf8_iff _ _).mpr ⟨front, kept, rfl, rfl⟩
  · obtain ⟨other, behind, hwhole, rfl⟩ := (isBoundary_utf8_iff _ _).mp hbetween
    have hbehind : (utf8 (front ++ kept)).length = (utf8 other).length + (utf8 behind).length := by simp [hwhole]
    have hshort := (utf8_suffix (hlongest behind ⟨other, hwhole.symm⟩ (by omega))).length_le
    omega

end IsLongest

@[simp]
theorem push_capacity (tail : DiagnosticTail) (chunk : List Char) : (tail.push chunk).capacity = tail.capacity := rfl

@[simp]
theorem foldl_push_capacity (tail : DiagnosticTail) (chunks : List (List Char)) :
    (chunks.foldl push tail).capacity = tail.capacity := by
  induction chunks generalizing tail with
  | nil => rfl
  | cons chunk chunks ih => rw [List.foldl_cons, ih, push_capacity]

theorem isLongest_foldl_push (capacity : Nat) (chunks : List (List Char)) :
    IsLongest capacity chunks.flatten (chunks.foldl push { capacity }).chars := by
  induction chunks using List.reverseRecOn with
  | nil => exact ⟨List.suffix_refl _, Nat.zero_le _, fun other hother _ => hother⟩
  | append_singleton chunks chunk ih =>
      rw [List.foldl_concat, List.flatten_concat]
      have hpush := IsLongest.push (chunks.foldl push { capacity }) chunk
      rw [foldl_push_capacity] at hpush
      exact ih.append hpush

/-- **What is kept** after any pieces is the longest end of them all that fits and starts at a
character, so that it is the same as if they had come in one; and with every further piece the
search for a place to cut at ends inside of the text. -/
theorem isLongestEnd_foldl_push (capacity : Nat) (chunks : List (List Char)) :
    let tail := chunks.foldl push { capacity }
    IsLongestEnd capacity (utf8 chunks.flatten) (utf8 tail.chars) ∧
      tail = push { capacity } chunks.flatten ∧
        ∀ chunk, ∃ found, found ≤ (utf8 (tail.chars ++ chunk)).length ∧
          Finds (utf8 (tail.chars ++ chunk)) ((utf8 (tail.chars ++ chunk)).length - capacity) found ∧
            utf8 (tail.push chunk).chars = (utf8 (tail.chars ++ chunk)).drop found := by
  intro tail
  have hcapacity : tail.capacity = capacity := foldl_push_capacity { capacity } chunks
  have hlongest : IsLongest capacity chunks.flatten tail.chars := isLongest_foldl_push capacity chunks
  refine ⟨hlongest.isLongestEnd, ?_, fun chunk => ?_⟩
  · have hwhole := IsLongest.push { capacity } chunks.flatten
    exact DiagnosticTail.ext hcapacity (hlongest.unique hwhole)
  · have hpush := IsLongest.push tail chunk
    rw [hcapacity] at hpush
    exact hpush.exists_finds

-- the first piece leaves three bytes of four, since a fourth would have been half of a character
example : ([['a', 'é', '€'], ['b']].foldl push { capacity := 4 }).chars = ['€', 'b'] := by cbv

end Segue.DiagnosticTail
