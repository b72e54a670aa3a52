import Segue.Progress
import Segue.Proofs.Numeral.Grammar

/-!
The time that the engine says it has reached. Main statement: the time that is found in a text is
the one behind the last mark that a time stands behind which can be read, and none is found just
when there is no such mark.
-/

namespace Segue

namespace Text

/-- A run of characters that are not blank, with nothing but blanks in front of it and, unless the
text ends there, a blank behind it. -/
inductive IsFirstWord : List Char → List Char → Prop
  | between {blanks word rest : List Char} (hblanks : ∀ c ∈ blanks, isBlank c = true) (hsome : word ≠ [])
      (hword : ∀ c ∈ word, isBlank c = false) (hrest : ∀ c, rest.head? = some c → isBlank c = true) :
      IsFirstWord (blanks ++ (word ++ rest)) word

theorem isFirstWord_iff {text word : List Char} : IsFirstWord text word ↔ word ≠ [] ∧ firstWord text = word := by
  constructor
  · rintro @⟨blanks, word, rest, hblanks, hsome, hword, hrest⟩
    have hhead : ∀ c, (word ++ rest).head? = some c → isBlank c = false := by
      intro c hc
      rw [List.head?_append_of_ne_nil _ hsome] at hc
      exact hword c (List.mem_of_mem_head? hc)
    have hfront : ∀ c ∈ word, (!isBlank c) = true := fun c hc => by simpa using hword c hc
    have hbehind : ∀ c, rest.head? = some c → (!isBlank c) = false := fun c hc => by simpa using hrest c hc
    rw [firstWord, (span_append hblanks hhead).2, (span_append hfront hbehind).1]
    exact ⟨hsome, rfl⟩
  · rintro ⟨hsome, rfl⟩
    obtain ⟨blanks, behind, rfl, hblanks, hhead⟩ := exists_span isBlank text
    obtain ⟨word, rest, rfl, hword, hrest⟩ := exists_span (fun c => !isBlank c) behind
    have hfirst : firstWord (blanks ++ (word ++ rest)) = word := by
      rw [firstWord, (span_append hblanks hhead).2, (span_append hword hrest).1]
    rw [hfirst] at hsome ⊢
    exact .between hblanks hsome (fun c hc => by simpa using hword c hc) fun c hc => by simpa using hrest c hc

end Text

namespace Progress

open Numeral (IsNumber float?_eq_some_iff)
open Text (IsFirstWord isFirstWord_iff)

/-- Hours, minutes and seconds with colons between them, and how many seconds they make: a finite
number from zero on. -/
inductive IsClock : List Char → Float → Prop
  | fields {hours minutes seconds : List Char} {h m s : Float} (hhours : IsNumber hours h)
      (hminutes : IsNumber minutes m) (hseconds : IsNumber seconds s)
      (hfinite : (h * 3600.0 + m * 60.0 + s).isFinite = true) (hsign : 0.0 ≤ h * 3600.0 + m * 60.0 + s) :
      IsClock (hours ++ ':' :: (minutes ++ ':' :: seconds)) (h * 3600.0 + m * 60.0 + s)

section

variable {text word hours minutes seconds : List Char} {total : Float}

theorem clockFields?_append (hhours : ':' ∉ hours) (hminutes : ':' ∉ minutes) :
    clockFields? (hours ++ ':' :: (minutes ++ ':' :: seconds)) = some (hours, minutes, seconds) := by
  have hfront : ∀ {field : List Char}, ':' ∉ field → ∀ c ∈ field, (c != ':') = true := by
    intro field hfield c hc
    exact bne_iff_ne.mpr fun heq => hfield (heq ▸ hc)
  have hcolon : ∀ (rest : List Char) (c : Char), (':' :: rest).head? = some c → (c != ':') = false := by
    rintro rest c ⟨⟩
    rfl
  obtain ⟨htake, hdrop⟩ := span_append (hfront hhours) (hcolon (minutes ++ ':' :: seconds))
  obtain ⟨htake', hdrop'⟩ := span_append (hfront hminutes) (hcolon seconds)
  simp only [clockFields?, htake, hdrop, htake', hdrop']

theorem eq_of_clockFields? (h : clockFields? word = some (hours, minutes, seconds)) :
    word = hours ++ ':' :: (minutes ++ ':' :: seconds) := by
  -- behind what has no colon there is either nothing or a colon
  have hcolon : ∀ {c : Char} {rest : List Char}, (∀ d, (c :: rest).head? = some d → (d != ':') = false) → c = ':' :=
    fun hrest => by simpa using hrest _ rfl
  obtain ⟨first, rest, rfl, hfirst, hrest⟩ := exists_span (· != ':') word
  obtain ⟨htake, hdrop⟩ := span_append hfirst hrest
  simp only [clockFields?, htake, hdrop] at h
  cases rest with
  | nil => cases h
  | cons c behind =>
      obtain rfl := hcolon hrest
      obtain ⟨second, rest', rfl, hsecond, hrest'⟩ := exists_span (· != ':') behind
      obtain ⟨htake', hdrop'⟩ := span_append hsecond hrest'
      simp only [htake', hdrop'] at h
      cases rest' with
      | nil => cases h
      | cons d last =>
          obtain rfl := hcolon hrest'
          cases h
          rfl

theorem clock?_eq_some_iff : clock? text = some total ↔ ∃ word, IsFirstWord text word ∧ IsClock word total := by
  simp only [clock?, Option.bind_eq_bind, Option.bind_eq_some_iff, Option.ite_none_right_eq_some, Option.some.injEq,
    float?_eq_some_iff]
  constructor
  · rintro ⟨⟨hours, minutes, seconds⟩, hfields, h, hhours, m, hminutes, s, hseconds, ⟨hfinite, hsign⟩, rfl⟩
    have hword := eq_of_clockFields? hfields
    refine ⟨_, isFirstWord_iff.mpr ⟨?_, hword⟩, .fields hhours hminutes hseconds hfinite hsign⟩
    simp
  · rintro ⟨_, hfirst, @⟨hours, minutes, seconds, h, m, s, hhours, hminutes, hseconds, hfinite, hsign⟩⟩
    refine ⟨(hours, minutes, seconds), ?_, h, hhours, m, hminutes, s, hseconds, ⟨hfinite, hsign⟩, rfl⟩
    rw [(isFirstWord_iff.mp hfirst).2]
    exact clockFields?_append hhours.colon_not_mem hminutes.colon_not_mem

end

/-- At some place of a text there is a mark, and behind it a clock that makes so many seconds is the
first word. -/
def IsReadAt (text : List Char) (place : Nat) (total : Float) : Prop :=
  ∃ after word, text.drop place = timeMark ++ after ∧ IsFirstWord after word ∧ IsClock word total

/-- What a text says at the last place where it says anything. -/
inductive LastRead (text : List Char) : Option Float → Prop
  | read {place : Nat} {total : Float} (h : IsReadAt text place total)
      (hlast : ∀ later other, place < later → ¬ IsReadAt text later other) : LastRead text (some total)
  | unread (h : ∀ place total, ¬ IsReadAt text place total) : LastRead text none

section

variable {c : Char} {text : List Char} {total : Float} {found : Option Float}

theorem isReadAt_zero : IsReadAt text 0 total ↔
    timeMark.isPrefixOf text = true ∧ clock? (text.drop timeMark.length) = some total := by
  rw [List.isPrefixOf_iff_prefix, clock?_eq_some_iff]
  constructor
  · rintro ⟨after, word, htext, hword, hclock⟩
    rw [List.drop_zero] at htext
    subst htext
    rw [List.drop_left]
    exact ⟨List.prefix_append _ _, word, hword, hclock⟩
  · rintro ⟨hmark, word, hword, hclock⟩
    exact ⟨_, word, List.prefix_append_drop hmark, hword, hclock⟩

theorem not_isReadAt_nil (place : Nat) : ¬ IsReadAt [] place total := by
  rintro ⟨after, word, htext, -⟩
  rw [List.drop_nil] at htext
  cases htext

/-- Text in front moves what is said to a later place. -/
theorem isReadAt_succ {place : Nat} : IsReadAt (c :: text) (place + 1) total ↔ IsReadAt text place total := Iff.rfl

/-- At each place a text says one thing at most. -/
theorem IsReadAt.unique {place : Nat} {other : Float} (h : IsReadAt text place total)
    (hother : IsReadAt text place other) : total = other := by
  have hsome := isReadAt_zero.mp (show IsReadAt (text.drop place) 0 total from h)
  have hsome' := isReadAt_zero.mp (show IsReadAt (text.drop place) 0 other from hother)
  exact Option.some.inj (hsome.2.symm.trans hsome'.2)

theorem LastRead.unique {other : Option Float} (h : LastRead text found) (hother : LastRead text other) :
    found = other := by
  cases h with
  | @read place total hread hlast =>
      cases hother with
      | @read place' total' hread' hlast' =>
          rcases Nat.lt_trichotomy place place' with hlt | rfl | hlt
          · exact absurd hread' (hlast _ _ hlt)
          · rw [hread.unique hread']
          · exact absurd hread (hlast' _ _ hlt)
      | unread hnone => exact absurd hread (hnone _ _)
  | unread hnone =>
      cases hother with
      | read hread' => exact absurd hread' (hnone _ _)
      | unread => rfl

/-- Whatever is said stays the last thing when there is more text in front. -/
theorem LastRead.cons (h : LastRead text (some total)) (c : Char) : LastRead (c :: text) (some total) := by
  cases h with
  | @read place _ hread hlast =>
      refine .read (isReadAt_succ.mpr hread) fun later other hlater => ?_
      obtain ⟨later, rfl⟩ := Nat.exists_eq_add_one_of_ne_zero (Nat.ne_zero_of_lt hlater)
      exact hlast later other (Nat.lt_of_succ_lt_succ hlater)

/-- In front of a text that says nothing it is the first place that counts. -/
theorem LastRead.cons_of_none (h : LastRead text none)
    (hfirst : ∀ total, found = some total ↔ IsReadAt (c :: text) 0 total) : LastRead (c :: text) found := by
  cases h with
  | unread hnone =>
      have hlater : ∀ later other, 0 < later → ¬ IsReadAt (c :: text) later other := by
        intro later other hlater
        obtain ⟨later, rfl⟩ := Nat.exists_eq_add_one_of_ne_zero (Nat.ne_zero_of_lt hlater)
        exact hnone later other
      cases found with
      | some total => exact .read ((hfirst total).mp rfl) hlater
      | none =>
          refine .unread fun place total hread => ?_
          rcases Nat.eq_zero_or_pos place with rfl | hpos
          · cases (hfirst total).mpr hread
          · exact hlater place total hpos hread

theorem lastRead_elapsed? (text : List Char) : LastRead text (elapsed? text) := by
  induction text with
  | nil => exact .unread fun place total => not_isReadAt_nil place
  | cons c text ih =>
      rw [elapsed?]
      cases htail : elapsed? text with
      | some total => exact (htail ▸ ih).cons c
      | none =>
          refine LastRead.cons_of_none (htail ▸ ih) fun total => ?_
          rw [isReadAt_zero]
          exact Option.ite_none_right_eq_some

end

/-- The time that is found in a text is the one at the last place where one can be read, whatever
stands behind it that cannot be read, and none is found just when there is no such place. So no text
in front changes a time that is found. -/
theorem elapsed?_last_clock :
    (∀ text total, elapsed? text = some total ↔
      ∃ place, IsReadAt text place total ∧ ∀ later other, place < later → ¬ IsReadAt text later other) ∧
    (∀ text, elapsed? text = none ↔ ∀ place total, ¬ IsReadAt text place total) ∧
    ∀ front text total, elapsed? text = some total → elapsed? (front ++ text) = some total := by
  refine ⟨fun text total => ⟨fun h => ?_, ?_⟩, fun text => ⟨fun h => ?_, ?_⟩, fun front text total h => ?_⟩
  · have hlast := lastRead_elapsed? text
    rw [h] at hlast
    cases hlast with
    | read hread hlast => exact ⟨_, hread, hlast⟩
  · rintro ⟨place, hread, hlast⟩
    exact (lastRead_elapsed? text).unique (.read hread hlast)
  · have hlast := lastRead_elapsed? text
    rw [h] at hlast
    cases hlast with
    | unread hnone => exact hnone
  · intro hnone
    exact (lastRead_elapsed? text).unique (.unread hnone)
  · induction front with
    | nil => exact h
    | cons c front ih => rw [List.cons_append, elapsed?, ih]

/-- A time that is not available does not hide the one before it, nor does one that the engine wrote
earlier. -/
theorem elapsed?_last_clock_unavailable :
    elapsed? "time=01:00:00.00 x\nsize=0kB time=N/A".toList = some 3600.0 ∧
      (∃ place, IsReadAt "time=01:00:00.00 x\nsize=0kB time=N/A".toList place 3600.0 ∧
        ∀ later other, place < later → ¬ IsReadAt "time=01:00:00.00 x\nsize=0kB time=N/A".toList later other) ∧
      elapsed? ("time=00:59:59.00 x\n".toList ++ "time=01:00:00.00 x\nsize=0kB time=N/A".toList) = some 3600.0 := by
  have hfound : elapsed? "time=01:00:00.00 x\nsize=0kB time=N/A".toList = some 3600.0 := by decide
  exact ⟨hfound, (elapsed?_last_clock.1 _ _).mp hfound, elapsed?_last_clock.2.2 _ _ _ hfound⟩

end Progress

end Segue
