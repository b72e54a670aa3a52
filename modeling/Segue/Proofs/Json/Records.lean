import Segue.Json.Record
import Segue.Proofs.Json.RoundTrip
import Segue.Proofs.Text.Parts

/-!
Fields that are written and read back. Main statements: what may be missing and what is a list are
read back when their parts are, and so are the fields of a record.
-/

namespace Segue.Json

variable {α : Type} {encode : α → Json} {decode : Decoder α}

theorem keptElements_eq_map (found : List Json) : keptElements found = found.map kept := by
  induction found with
  | nil => rfl
  | cons head tail ih => rw [keptElements, ih, List.map_cons]

theorem keptMembers_eq_map (found : List (String × Json)) :
    keptMembers found = found.map fun (name, json) => (name, json.kept) := by
  induction found with
  | nil => rfl
  | cons head tail ih => rw [keptMembers, ih, List.map_cons]

theorem kept_ofOption {value : Option α} (h : ∀ part ∈ value, (encode part).kept = encode part) :
    (ofOption encode value).kept = ofOption encode value := by
  cases value with
  | none => rfl
  | some part => exact h part rfl

theorem kept_ofOption_string (text : Option String) : (ofOption .string text).kept = ofOption .string text :=
  kept_ofOption fun _ _ => rfl

theorem kept_list {parts : List α} (h : ∀ part ∈ parts, (encode part).kept = encode part) :
    (array (parts.map encode)).kept = array (parts.map encode) := by
  rw [kept, keptElements_eq_map, List.map_map]
  exact congrArg array (List.map_congr_left h)

/-- A record is kept when its fields are. -/
theorem kept_object {fields : List (String × Json)} (h : ∀ field ∈ fields, field.2.kept = field.2) :
    (object fields).kept = object fields := by
  have hfields : (fields.map fun (name, json) => (name, json.kept)) = fields.map id :=
    List.map_congr_left fun field hfield => Prod.ext rfl (h field hfield)
  rw [kept, keptMembers_eq_map, hfields, List.map_id]

/-- Whatever is written of a type is read back, and is never taken for a value that is missing. -/
structure Recovers (decode : Decoder α) (encode : α → Json) : Prop where
  notNull : ∀ part, encode part ≠ .null
  reads : ∀ part, decode (encode part) = some part

theorem recovers_string : Recovers asString .string := ⟨fun _ => nofun, fun _ => rfl⟩

theorem recovers_float : Recovers asFloat .float := ⟨fun _ => nofun, fun _ => rfl⟩

theorem Recovers.asOption_ofOption (h : Recovers decode encode) (value : Option α) :
    asOption decode (ofOption encode value) = some value := by
  cases value with
  | none => rfl
  | some part =>
      rw [ofOption, asOption, h.reads part]
      · rfl
      · exact h.notNull part

/-- A whole number is read back when it fits. -/
theorem asNatBelow_natCast {bound value : Nat} (h : value < bound) : asNatBelow bound (.int value) = some value := by
  have hbound : 0 ≤ (value : Int) ∧ (value : Int) < bound := ⟨Int.natCast_nonneg _, Int.ofNat_lt.mpr h⟩
  rw [asNatBelow, if_pos hbound, Int.toNat_natCast]

theorem asList_list {parts : List α} (h : ∀ part ∈ parts, decode (encode part) = some part) :
    asList decode (array (parts.map encode)) = some parts :=
  mapM_map_eq_some_iff.mpr h

theorem distinct_iff_nodup {fields : Fields} : fields.distinct = true ↔ (fields.map Prod.fst).Nodup := by
  induction fields with
  | nil => exact iff_of_true rfl List.nodup_nil
  | cons field fields ih =>
      have hhead : (fields.all fun other => other.1 != field.1) = true ↔ field.1 ∉ fields.map Prod.fst := by
        rw [List.all_eq_true, List.mem_map]
        refine ⟨fun h ⟨other, hother, hname⟩ => bne_iff_ne.mp (h other hother) hname, fun h other hother => ?_⟩
        exact bne_iff_ne.mpr fun hname => h ⟨other, hother, hname⟩
      rw [List.map_cons, List.nodup_cons, ← hhead, ← ih, ← Bool.and_eq_true]
      rfl

theorem fields?_eq_some {names : List String} {members fields : Fields} :
    fields? names (.object members) = some fields ↔
      fields = (members.filter fun (name, _) => names.contains name) ∧ fields.distinct = true := by
  unfold fields?
  dsimp only
  split
  · rename_i hdistinct
    constructor
    · rintro ⟨⟩
      exact ⟨rfl, hdistinct⟩
    · rintro ⟨rfl, -⟩
      rfl
  · rename_i hdistinct
    constructor
    · intro h
      cases h
    · rintro ⟨rfl, h⟩
      exact (hdistinct h).elim

/-- A record that is written with all its names has the fields that were written. -/
theorem fields?_object {names : List String} (hnodup : names.Nodup) {fields : Fields}
    (hnames : fields.map Prod.fst = names) : fields? names (.object fields) = some fields := by
  refine fields?_eq_some.mpr ⟨(List.filter_eq_self.mpr fun field hfield => ?_).symm,
    distinct_iff_nodup.mpr (hnames ▸ hnodup)⟩
  rw [← hnames]
  exact List.contains_iff_mem.mpr (List.mem_map_of_mem hfield)

namespace Fields

variable {fields : Fields} {name : String}

theorem required_eq {json : Json} {value : α} (hlookup : fields.lookup name = some json)
    (h : decode json = some value) : fields.required name decode = some value := by
  rw [required, hlookup]
  exact h

theorem withDefault_eq {json : Json} {default value : α} (hlookup : fields.lookup name = some json)
    (h : decode json = some value) : fields.withDefault name default decode = some value := by
  rw [withDefault, hlookup]
  exact h

theorem optional_eq {value : Option α} (hlookup : fields.lookup name = some (ofOption encode value))
    (h : Recovers decode encode) : fields.optional name decode = some value :=
  withDefault_eq hlookup (h.asOption_ofOption value)

theorem listOf_eq {parts : List α} (hlookup : fields.lookup name = some (.array (parts.map encode)))
    (h : ∀ part ∈ parts, decode (encode part) = some part) : fields.listOf name decode = some parts :=
  withDefault_eq hlookup (asList_list h)

end Fields

end Segue.Json
