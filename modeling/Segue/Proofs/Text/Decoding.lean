import Segue.Text.Utf8

/-!
What decoding does to ASCII characters: nothing. Main statement: bytes that are decoded in pieces,
however they have been cut, give the ASCII characters of the bytes in their order, with other
characters in the places of other bytes.
-/

namespace Segue.Text

def IsAscii (c : Char) : Prop := c.toNat < 0x80

instance (c : Char) : Decidable (IsAscii c) := inferInstanceAs (Decidable (_ < _))

def latin (bytes : List UInt8) : List Char := bytes.map fun byte => Char.ofNat byte.toNat

/-- Two texts that agree but for the characters that are not ASCII: where the one has some of these
the other has some as well, but maybe not as many. -/
inductive SameAscii : List Char → List Char → Prop
  | nil : SameAscii [] []
  | same (c : Char) {text text' : List Char} (h : SameAscii text text') : SameAscii (c :: text) (c :: text')
  | others {run run' text text' : List Char} (hrun : run ≠ []) (hrun' : run' ≠ [])
      (hothers : ∀ c ∈ run, ¬ IsAscii c) (hothers' : ∀ c ∈ run', ¬ IsAscii c) (h : SameAscii text text') :
      SameAscii (run ++ text) (run' ++ text')

namespace SameAscii

variable {text text' rest rest' : List Char}

theorem append (h : SameAscii text text') (hrest : SameAscii rest rest') :
    SameAscii (text ++ rest) (text' ++ rest') := by
  induction h with
  | nil => exact hrest
  | same c _ ih => exact .same c ih
  | others hrun hrun' hothers hothers' _ ih =>
      rw [List.append_assoc, List.append_assoc]
      exact .others hrun hrun' hothers hothers' ih

/-- Where one text is ASCII throughout, so is the other, and they are the same. -/
theorem eq_of_ascii (h : SameAscii text text') (hascii : ∀ c ∈ text, IsAscii c) : text' = text := by
  induction h with
  | nil => rfl
  | same c _ ih => rw [ih fun d hd => hascii d (List.mem_cons_of_mem c hd)]
  | @others run _ _ _ hrun _ hothers _ _ _ =>
      obtain ⟨c, run, rfl⟩ := List.exists_cons_of_ne_nil hrun
      exact absurd (hascii c List.mem_cons_self) (hothers c List.mem_cons_self)

end SameAscii

/-- The value with the least and the greatest followers there may be. -/
def extremes (bounds : List (UInt8 × UInt8)) (value : Nat) : Nat × Nat :=
  (bounds.foldl (fun value bound => 64 * value + bound.1.toNat % 64) value,
    bounds.foldl (fun value bound => 64 * value + bound.2.toNat % 64) value)

/-- Whether the followers are within what any follower is. -/
def AreFollowers (bounds : List (UInt8 × UInt8)) : Prop := ∀ bound ∈ bounds, 0x80 ≤ bound.1 ∧ bound.2 ≤ 0xBF

/-- Whether the values from one to another are those of characters that are not ASCII. -/
def AreOthers (values : Nat × Nat) : Prop :=
  0x80 ≤ values.1 ∧ (values.2 < 0xD800 ∨ 0xDFFF < values.1 ∧ values.2 < 0x110000)

/-- What is taken as followers is no ASCII, and the value lies between the extremes. -/
theorem takeFollowers_cases {bounds : List (UInt8 × UInt8)} (hbounds : AreFollowers bounds) {low value high : Nat}
    (hlow : low ≤ value) (hhigh : value ≤ high) (bytes : List UInt8) :
    ∃ taken, bytes = taken ++ (takeFollowers value bounds bytes).2 ∧ (∀ byte ∈ taken, 0x80 ≤ byte) ∧
      ∀ c, (takeFollowers value bounds bytes).1 = some c →
        ∃ point, c = Char.ofNat point ∧ (extremes bounds low).1 ≤ point ∧ point ≤ (extremes bounds high).2 := by
  induction bounds generalizing low value high bytes with
  | nil =>
      refine ⟨[], rfl, by simp, fun c hc => ?_⟩
      cases hc
      exact ⟨value, rfl, hlow, hhigh⟩
  | cons bound bounds ih =>
      obtain ⟨hleast, hgreatest⟩ := hbounds bound List.mem_cons_self
      cases bytes with
      | nil => exact ⟨[], rfl, by simp, by simp [takeFollowers]⟩
      | cons byte rest =>
          rw [takeFollowers]
          split
          · rename_i hbyte
            have hbounds' : AreFollowers bounds := fun bound hbound => hbounds bound (List.mem_cons_of_mem _ hbound)
            have hover : bound.1.toNat % 64 ≤ byte.toNat % 64 ∧ byte.toNat % 64 ≤ bound.2.toNat % 64 := by
              simp only [UInt8.le_iff_toNat_le, UInt8.reduceToNat] at hbyte hleast hgreatest
              omega
            have hlow' : 64 * low + bound.1.toNat % 64 ≤ 64 * value + byte.toNat % 64 := by omega
            have hhigh' : 64 * value + byte.toNat % 64 ≤ 64 * high + bound.2.toNat % 64 := by omega
            obtain ⟨taken, hrest, htaken, hpoint⟩ := ih hbounds' hlow' hhigh' rest
            refine ⟨byte :: taken, congrArg (byte :: ·) hrest, ?_, hpoint⟩
            rintro other (_ | ⟨_, hother⟩)
            · exact UInt8.le_trans hleast hbyte.1
            · exact htaken other hother
          · exact ⟨[], rfl, by simp, by simp⟩

theorem toNat_ofNat {point : Nat} (h : point.isValidChar) : (Char.ofNat point).toNat = point := by
  rw [Char.ofNat, dif_pos h]
  rfl

/-- A character of such a value is no ASCII. -/
theorem not_isAscii_ofNat {point : Nat} {values : Nat × Nat} (h : AreOthers values) (hleast : values.1 ≤ point)
    (hgreatest : point ≤ values.2) : ¬ IsAscii (Char.ofNat point) := by
  obtain ⟨hother, hvalid⟩ := h
  have hpoint : point.isValidChar := by
    rcases hvalid with hlow | ⟨hhigh, hend⟩
    · exact .inl (Nat.lt_of_le_of_lt hgreatest hlow)
    · exact .inr ⟨Nat.lt_of_lt_of_le hhigh hleast, Nat.lt_of_le_of_lt hgreatest hend⟩
  rw [IsAscii, toNat_ofNat hpoint]
  omega

instance (bounds : List (UInt8 × UInt8)) : Decidable (AreFollowers bounds) :=
  List.decidableBAll _ bounds

instance (values : Nat × Nat) : Decidable (AreOthers values) := inferInstanceAs (Decidable (_ ∧ _))

theorem continuationBounds_sound (lead : UInt8) : ∀ bounds ∈ continuationBounds lead,
    AreFollowers bounds ∧ AreOthers (extremes bounds (leadPayload lead bounds.length)) := by
  have hall : ∀ number : Fin 256, ∀ bounds ∈ continuationBounds (UInt8.ofFin number),
      AreFollowers bounds ∧ AreOthers (extremes bounds (leadPayload (UInt8.ofFin number) bounds.length)) := by
    decide +kernel
  exact hall lead.toFin

theorem not_isAscii_latin {bytes : List UInt8} (h : ∀ byte ∈ bytes, 0x80 ≤ byte) : ∀ c ∈ latin bytes, ¬ IsAscii c := by
  intro c hc
  obtain ⟨byte, hbyte, rfl⟩ := List.mem_map.mp hc
  have hleast : 0x80 ≤ byte.toNat := UInt8.le_iff_toNat_le.mp (h byte hbyte)
  have hvalues : AreOthers (0x80, 0xFF) := by decide
  exact not_isAscii_ofNat hvalues hleast (Nat.le_of_lt_succ byte.toNat_lt)

theorem not_isAscii_replacement : ¬ IsAscii replacement := by decide

theorem latin_append (bytes rest : List UInt8) : latin (bytes ++ rest) = latin bytes ++ latin rest :=
  List.map_append

theorem sameAscii_decodeLossy (bytes : List UInt8) : SameAscii (latin bytes) (decodeLossy bytes) := by
  induction bytes using decodeLossy.induct with
  | case1 =>
      rw [decodeLossy]
      exact .nil
  | case2 lead rest hascii ih =>
      rw [decodeLossy, if_pos hascii]
      exact .same _ ih
  | case3 lead rest hascii hbounds ih =>
      rw [decodeLossy, if_neg hascii, hbounds]
      have hlead : ∀ byte ∈ [lead], 0x80 ≤ byte := by simpa using hascii
      have hreplaced : ∀ c ∈ [replacement], ¬ IsAscii c := by simp [not_isAscii_replacement]
      exact .others (by simp [latin]) (by simp) (not_isAscii_latin hlead) hreplaced ih
  | case4 lead rest hascii bounds hbounds taken ih =>
      rw [decodeLossy, if_neg hascii, hbounds]
      obtain ⟨hfollowers, hothers⟩ := continuationBounds_sound lead bounds hbounds
      obtain ⟨followers, hrest, hlarge, hpoint⟩ :=
        takeFollowers_cases hfollowers (Nat.le_refl (leadPayload lead bounds.length)) (Nat.le_refl _) rest
      have hrun : ∀ byte ∈ lead :: followers, 0x80 ≤ byte := by
        rintro byte (_ | ⟨_, hbyte⟩)
        · exact UInt8.not_lt.mp hascii
        · exact hlarge byte hbyte
      have hdecoded : ∀ c ∈ [taken.1.getD replacement], ¬ IsAscii c := by
        rw [List.forall_mem_singleton]
        cases htaken : taken.1 with
        | none => exact not_isAscii_replacement
        | some c =>
            obtain ⟨point, rfl, hleast, hgreatest⟩ := hpoint c htaken
            exact not_isAscii_ofNat hothers hleast hgreatest
      have hsplit : latin (lead :: rest) = latin (lead :: followers) ++ latin taken.2 := by
        rw [← latin_append, List.cons_append, ← hrest]
      rw [hsplit]
      exact .others (by simp [latin]) (by simp) (not_isAscii_latin hrun) hdecoded ih

/-- Bytes that are decoded piece by piece. -/
theorem sameAscii_pieces (pieces : List (List UInt8)) :
    SameAscii (latin pieces.flatten) (pieces.flatMap decodeLossy) := by
  induction pieces with
  | nil => exact .nil
  | cons piece pieces ih =>
      rw [List.flatten_cons, latin_append, List.flatMap_cons]
      exact (sameAscii_decodeLossy piece).append ih

end Segue.Text
