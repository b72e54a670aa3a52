import Segue.Json.Record
import Segue.Proofs.Double.Exact
import Segue.Proofs.Json.Records

/-!
Numbers that are read. Main statement: every number of a value that is read is a finite double, so
whatever a decoder makes of the value has finite numbers in it.
-/

namespace Segue

namespace Double

/-- The bits of the units that a number of 64 bits takes up. -/
def wordBits : Nat := 64 + 1074

/-- A double from zero up that is no larger than a number of 64 bits. -/
def IsWord (x : Float) : Prop := x.isFinite = true ∧ ∃ size : Nat, units x = size ∧ size ≤ 2 ^ wordBits

variable {x divisor : Float}

theorem two_pow_wordBits_lt : 2 ^ wordBits < overflow := by
  rw [overflow_eq, wordBits, two_pow_mul_perOne]
  refine Nat.mul_lt_mul_of_pos_right ?_ perOne_pos
  gcongr <;> decide

theorem isWord_ofNat {count : Nat} (h : count < 2 ^ 64) : IsWord (Float.ofNat count) := by
  obtain ⟨hfinite, hunits⟩ := ofNat_rounded h
  refine ⟨hfinite, _, hunits, rounded_le_of_pow ?_⟩
  rw [wordBits, two_pow_mul_perOne]
  exact Nat.mul_le_mul_right _ h.le

theorem decimalOne_exact : (1.0 : Float).isFinite = true ∧ units 1.0 = perOne := by
  have hliteral : (1.0 : Float) = 1 := by decide +kernel
  rw [hliteral]
  exact one_exact

/-- Dividing by one or more makes nothing larger. -/
theorem IsWord.div (h : IsWord x) (hdivisor : divisor.isFinite = true) (hone : 1.0 ≤ divisor) :
    IsWord (x / divisor) := by
  obtain ⟨hfinite, size, hsize, hle⟩ := h
  rw [le_iff_units decimalOne_exact.1 hdivisor, decimalOne_exact.2] at hone
  obtain ⟨count, hcount⟩ := Int.eq_ofNat_of_zero_le ((Int.natCast_nonneg perOne).trans hone)
  rw [hcount] at hone
  have hperOne : perOne ≤ count := Int.ofNat_le.mp hone
  have hpositive : 0 < count := perOne_pos.trans_le hperOne
  have hratio : roundedRatio (size * perOne) count ≤ 2 ^ wordBits :=
    roundedRatio_le_of_pow hpositive (Nat.mul_le_mul hle hperOne)
  obtain ⟨hquotient, hunits⟩ :=
    isFinite_div hfinite hdivisor hsize hcount hpositive (hratio.trans_lt two_pow_wordBits_lt)
  exact ⟨hquotient, _, hunits, hratio⟩

end Double

namespace Json

open Segue.Double

theorem gather_lt {significand : Nat} {digits : List Char} (h : significand < significandBound) :
    (gather significand digits).1 < significandBound := by
  induction digits generalizing significand with
  | nil => exact h
  | cons digit rest ih =>
      rw [gather]
      split
      · rename_i hroom
        exact ih hroom
      · exact h

/-- A power of ten that is no exact double is the nearest one. -/
theorem powerOfTen_rounded {exponent : Nat} (hlarge : 22 < exponent) (h : exponent ≤ greatestPower) :
    (powerOfTen exponent).isFinite = true ∧ units (powerOfTen exponent) = (rounded (10 ^ exponent * perOne) : Nat) := by
  have heq : powerOfTen exponent = Float.ofModel (.ofScientific 1 exponent) := by
    rw [powerOfTen, Float.ofScientific, dif_neg fun hsmall => hlarge.not_ge hsmall.2]
    rfl
  have hsize : rounded (10 ^ exponent * perOne) < overflow := by
    have hgreatest : rounded (10 ^ greatestPower * perOne) < overflow := by decide +kernel
    refine (rounded_mono (Nat.mul_le_mul_right _ ?_)).trans_lt hgreatest
    exact Nat.pow_le_pow_right (by decide) h
  obtain ⟨hrounded, hunits⟩ := unitsOf_ofScientific Nat.one_ne_zero (h.trans (by decide))
  rw [Nat.one_mul] at hunits
  have hfinite : (Float.ofModel (.ofScientific 1 exponent)).isFinite = true :=
    isFinite_pack hrounded (by rwa [hunits, Int.natAbs_natCast])
  rw [heq]
  exact ⟨hfinite, (units_pack hrounded hfinite).trans hunits⟩

/-- The powers of ten that are doubles are one or more. -/
theorem powerOfTen_bounds :
    ∀ exponent ≤ greatestPower, (powerOfTen exponent).isFinite = true ∧ 1.0 ≤ powerOfTen exponent := by
  intro exponent h
  rcases Nat.lt_or_ge 22 exponent with hlarge | hsmall
  · obtain ⟨hfinite, hunits⟩ := powerOfTen_rounded hlarge h
    obtain ⟨bits, hbits⟩ : ∃ bits : Nat, bits = 1074 := ⟨_, rfl⟩
    have hone : perOne ≤ rounded (10 ^ exponent * perOne) := by
      rw [← two_pow_eq_perOne hbits]
      exact le_rounded_of_pow (Nat.le_mul_of_pos_left _ (Nat.pow_pos (by decide)))
    rw [le_iff_units decimalOne_exact.1 hfinite, decimalOne_exact.2, hunits]
    exact ⟨hfinite, Int.ofNat_le.mpr hone⟩
  · have hexact : ∀ exponent ≤ 22, (powerOfTen exponent).isFinite = true ∧ 1.0 ≤ powerOfTen exponent := by
      decide +kernel
    exact hexact exponent hsmall

theorem isFinite_scale? {size scaled : Float} {exponent : Int} (h : IsWord size)
    (hscale : scale? size exponent = some scaled) :
    scaled.isFinite = true := by
  fun_induction scale? size exponent with
  | case1 size exponent hbelow hzero =>
      cases hscale
      exact h.1
  | case2 size exponent hbelow hzero ih =>
      obtain ⟨hpower, hone⟩ := powerOfTen_bounds greatestPower (Nat.le_refl _)
      exact ih (h.div hpower hone) hscale
  | case3 size exponent hbelow hnegative =>
      cases hscale
      obtain ⟨hpower, hone⟩ := powerOfTen_bounds exponent.natAbs (by omega)
      exact (h.div hpower hone).1
  | case4 size exponent hbelow hnegative hpower =>
      exact (Option.filter_eq_some_iff.mp hscale).2
  | case5 size exponent hbelow hnegative hpower hzero =>
      cases hscale
      exact h.1
  | case6 => cases hscale

/-- Every number in a value is a finite double. -/
inductive IsFinite : Json → Prop
  | null : IsFinite .null
  | bool (value : Bool) : IsFinite (.bool value)
  | int {value : Int} (h : value.natAbs < 2 ^ 64) : IsFinite (.int value)
  | float {value : Float} (h : value.isFinite = true) : IsFinite (.float value)
  | string (value : String) : IsFinite (.string value)
  | array {elements : List Json} (h : ∀ element ∈ elements, element.IsFinite) : IsFinite (.array elements)
  | object {members : List (String × Json)} (h : ∀ member ∈ members, member.2.IsFinite) : IsFinite (.object members)
  | unreadable : IsFinite .unreadable

theorem isFinite_size? {whole behind : List Char} {exponent : Int} {size : Float}
    (h : size? whole behind exponent = some size) : size.isFinite = true := by
  have hwhole : (gather 0 whole).1 < significandBound := gather_lt (by decide)
  exact isFinite_scale? (isWord_ofNat (gather_lt hwhole)) h

theorem isFinite_numberValue (negative : Bool) (whole : List Char) (places : Option (List Char))
    (exponent : Option Int) :
    (numberValue negative whole places exponent).IsFinite := by
  unfold numberValue
  dsimp only
  split
  · rename_i hword
    simp only [Bool.and_eq_true, decide_eq_true_eq] at hword
    exact .int (by simpa using hword.2)
  · split
    · rename_i hword
      simp only [Bool.and_eq_true, decide_eq_true_eq] at hword
      refine .int ?_
      rw [Int.natAbs_neg, Int.natAbs_natCast]
      exact hword.2.trans_lt (by decide)
    · split
      · rename_i size hsize
        refine .float ?_
        have hfinite := isFinite_size? hsize
        split
        · exact (Double.isFinite_neg hfinite).1
        · exact hfinite
      · exact .unreadable

theorem isFinite_number {negative : Bool} {text rest : List Char} {found : Json}
    (h : number negative text = some (found, rest)) : found.IsFinite := by
  obtain ⟨⟨whole, behind⟩, -, h⟩ := Option.bind_eq_some_iff.mp h
  obtain ⟨⟨places, behind'⟩, -, h⟩ := Option.bind_eq_some_iff.mp h
  obtain ⟨⟨exponent, behind''⟩, -, h⟩ := Option.bind_eq_some_iff.mp h
  cases h
  exact isFinite_numberValue _ _ _ _

theorem isFinite_ofMembers {members : List (Option String × Json)} (h : ∀ member ∈ members, member.2.IsFinite) :
    (ofMembers members).IsFinite := by
  unfold ofMembers
  split
  · rename_i named hnamed
    refine .object fun member hmember => ?_
    obtain ⟨⟨name?, value⟩, hread, hname⟩ := exists_of_mem_mapM hnamed hmember
    obtain ⟨name, -, rfl⟩ := Option.map_eq_some_iff.mp hname
    exact h _ hread
  · exact .unreadable

/-- What is read for a value, for the elements of an array and for the members of an object. -/
structure ReadsFinite (fuel : Nat) : Prop where
  value : ∀ {text rest : List Char} {found : Json}, Json.value fuel text = some (found, rest) → found.IsFinite
  elements : ∀ {text rest : List Char} {found : List Json}, Json.elements fuel text = some (found, rest) →
    ∀ element ∈ found, element.IsFinite
  members : ∀ {text rest : List Char} {found : List (Option String × Json)},
    Json.members fuel text = some (found, rest) → ∀ member ∈ found, member.2.IsFinite

theorem ReadsFinite.value_succ {fuel : Nat} (h : ReadsFinite fuel) {text rest : List Char} {found : Json}
    (hvalue : Json.value (fuel + 1) text = some (found, rest)) : found.IsFinite := by
  unfold Json.value at hvalue
  split at hvalue
  · obtain ⟨behind, -, heq⟩ := Option.map_eq_some_iff.mp hvalue
    cases heq
    exact .null
  · obtain ⟨behind, -, heq⟩ := Option.map_eq_some_iff.mp hvalue
    cases heq
    exact .bool true
  · obtain ⟨behind, -, heq⟩ := Option.map_eq_some_iff.mp hvalue
    cases heq
    exact .bool false
  · obtain ⟨⟨string, behind⟩, -, heq⟩ := Option.map_eq_some_iff.mp hvalue
    cases heq
    cases string with
    | none => exact .unreadable
    | some string => exact .string string
  · split at hvalue
    · cases hvalue
      exact .array (List.forall_mem_nil _)
    · obtain ⟨⟨elements, behind⟩, helements, heq⟩ := Option.map_eq_some_iff.mp hvalue
      cases heq
      exact .array (h.elements helements)
  · split at hvalue
    · cases hvalue
      exact .object (List.forall_mem_nil _)
    · obtain ⟨⟨members, behind⟩, hmembers, heq⟩ := Option.map_eq_some_iff.mp hvalue
      cases heq
      exact isFinite_ofMembers (h.members hmembers)
  · exact isFinite_number hvalue
  · exact isFinite_number hvalue

theorem ReadsFinite.elements_succ {fuel : Nat} (h : ReadsFinite fuel) {text rest : List Char} {found : List Json}
    (helements : Json.elements (fuel + 1) text = some (found, rest)) : ∀ element ∈ found, element.IsFinite := by
  unfold Json.elements at helements
  obtain ⟨⟨head, behind⟩, hvalue, hmore⟩ := Option.bind_eq_some_iff.mp helements
  dsimp only at hmore
  split at hmore
  · obtain ⟨⟨tail, behind'⟩, htail, heq⟩ := Option.bind_eq_some_iff.mp hmore
    cases heq
    exact List.forall_mem_cons.mpr ⟨h.value hvalue, h.elements htail⟩
  · cases hmore
    exact List.forall_mem_singleton.mpr (h.value hvalue)
  · cases hmore

theorem ReadsFinite.members_succ {fuel : Nat} (h : ReadsFinite fuel) {text rest : List Char}
    {found : List (Option String × Json)}
    (hmembers : Json.members (fuel + 1) text = some (found, rest)) : ∀ member ∈ found, member.2.IsFinite := by
  unfold Json.members at hmembers
  split at hmembers
  · obtain ⟨⟨name, behind⟩, -, hcolon⟩ := Option.bind_eq_some_iff.mp hmembers
    dsimp only at hcolon
    split at hcolon
    · obtain ⟨⟨head, behind'⟩, hvalue, hmore⟩ := Option.bind_eq_some_iff.mp hcolon
      dsimp only at hmore
      split at hmore
      · obtain ⟨⟨tail, behind''⟩, htail, heq⟩ := Option.bind_eq_some_iff.mp hmore
        cases heq
        exact List.forall_mem_cons.mpr ⟨h.value hvalue, h.members htail⟩
      · cases hmore
        exact List.forall_mem_singleton.mpr (h.value hvalue)
      · cases hmore
    · cases hcolon
  · cases hmembers

theorem readsFinite (fuel : Nat) : ReadsFinite fuel := by
  induction fuel with
  | zero => exact ⟨fun h => (nomatch h), fun h => (nomatch h), fun h => (nomatch h)⟩
  | succ fuel ih => exact ⟨ih.value_succ, ih.elements_succ, ih.members_succ⟩

/-- **Numbers.** What is read from a text has finite numbers only. -/
theorem isFinite_of_parse? {text : String} {found : Json} (h : parse? text = some found) : found.IsFinite := by
  obtain ⟨⟨value, rest⟩, hvalue, hrest⟩ := Option.bind_eq_some_iff.mp h
  dsimp only at hrest
  split at hrest
  · cases hrest
    exact (readsFinite _).value hvalue
  · cases hrest

/-- What a decoder makes of a value with finite numbers. -/
structure Yields {α : Type} (decode : Decoder α) (p : α → Prop) : Prop where
  holds : ∀ {json : Json} {value : α}, json.IsFinite → decode json = some value → p value

def Fields.AreFinite (fields : Fields) : Prop := ∀ field ∈ fields, field.2.IsFinite

section

variable {α : Type} {decode : Decoder α} {p : α → Prop} {fields : Fields} {name : String}

theorem yields_asFloat : Yields asFloat fun x => x.isFinite = true := by
  refine ⟨fun {json x} hjson hdecode => ?_⟩
  cases hjson with
  | @int value h =>
      cases hdecode
      cases value with
      | ofNat count => exact (isWord_ofNat h).1
      | negSucc count => exact (Double.isFinite_neg (isWord_ofNat h).1).1
  | float h =>
      cases hdecode
      exact h
  | _ => cases hdecode

theorem Yields.asOption (h : Yields decode p) : Yields (asOption decode) fun found => ∀ value ∈ found, p value := by
  refine ⟨fun {json found} hjson hdecode => ?_⟩
  unfold Json.asOption at hdecode
  split at hdecode
  · cases hdecode
    nofun
  · obtain ⟨value, hvalue, rfl⟩ := Option.map_eq_some_iff.mp hdecode
    rintro _ ⟨⟩
    exact h.holds hjson hvalue

theorem Yields.asList (h : Yields decode p) : Yields (asList decode) fun found => ∀ value ∈ found, p value := by
  refine ⟨fun {json found} hjson hdecode => ?_⟩
  cases hjson with
  | @array elements helements =>
      intro value hvalue
      obtain ⟨element, helement, hread⟩ := exists_of_mem_mapM hdecode hvalue
      exact h.holds (helements element helement) hread
  | _ => cases hdecode

theorem fields?_areFinite {names : List String} : Yields (fields? names) Fields.AreFinite := by
  refine ⟨fun {json fields} hjson hfields => ?_⟩
  cases hjson with
  | @object members hmembers =>
      obtain ⟨rfl, -⟩ := fields?_eq_some.mp hfields
      exact fun field hfield => hmembers field (List.mem_of_mem_filter hfield)
  | @array elements helements =>
      unfold fields? at hfields
      dsimp only at hfields
      split at hfields
      · cases hfields
        exact fun field hfield => helements _ (List.of_mem_zip hfield).2
      · cases hfields
  | _ => cases hfields

theorem Fields.AreFinite.lookup (h : fields.AreFinite) {json : Json} (hlookup : fields.lookup name = some json) :
    json.IsFinite := by
  obtain ⟨before, behind, rfl, -⟩ := List.lookup_eq_some_iff.mp hlookup
  exact h _ (List.mem_append_right before List.mem_cons_self)

theorem Yields.required (h : Yields decode p) (hfields : fields.AreFinite) {value : α}
    (hvalue : fields.required name decode = some value) : p value := by
  obtain ⟨json, hlookup, hdecode⟩ := Option.bind_eq_some_iff.mp hvalue
  exact h.holds (hfields.lookup hlookup) hdecode

theorem Yields.withDefault (h : Yields decode p) (hfields : fields.AreFinite) {default value : α} (hdefault : p default)
    (hvalue : fields.withDefault name default decode = some value) : p value := by
  unfold Fields.withDefault at hvalue
  split at hvalue
  · rename_i json hlookup
    exact h.holds (hfields.lookup hlookup) hvalue
  · cases hvalue
    exact hdefault

theorem Yields.optional (h : Yields decode p) (hfields : fields.AreFinite) {found : Option α}
    (hfound : fields.optional name decode = some found) : ∀ value ∈ found, p value := by
  have hnone : ∀ value ∈ (none : Option α), p value := nofun
  exact h.asOption.withDefault hfields hnone hfound

theorem Yields.listOf (h : Yields decode p) (hfields : fields.AreFinite) {found : List α}
    (hfound : fields.listOf name decode = some found) : ∀ value ∈ found, p value :=
  h.asList.withDefault hfields (List.forall_mem_nil _) hfound

end

end Json

end Segue
