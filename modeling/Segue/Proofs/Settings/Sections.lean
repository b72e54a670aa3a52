import Segue.Proofs.Settings.Stored

/-!
What becomes of the other sections of a configuration file when an export is remembered in it. Main
statement: a well-formed section is kept just when the file is not written, or the whole file can be
decoded, or the section is as it is by default.
-/

namespace Segue

open Json

/-- The members of an object have one section of a name, and that is a well-formed one with a value. -/
def IsSection {α : Type} (members : List (String × Json)) (name : String) (decode : Decoder α) (value : α) : Prop :=
  ∃ json, members.filter (·.1 == name) = [(name, json)] ∧ decode json = some value

/-- There is nothing wrong with the section of a name: there is none, or one that is well-formed. -/
def IsSound {α : Type} (members : List (String × Json)) (name : String) (decode : Decoder α) : Prop :=
  members.filter (·.1 == name) = [] ∨ ∃ value, IsSection members name decode value

variable {members : List (String × Json)} {name : String} {names : List String}

theorem distinct_iff {fields : Fields} :
    fields.distinct = true ↔ ∀ name, (fields.filter (·.1 == name)).length ≤ 1 := by
  rw [distinct_iff_nodup, List.nodup_iff_count_le_one]
  refine forall_congr' fun name => ?_
  rw [List.count, List.countP_map, List.countP_eq_length_filter]
  rfl

/-- Members of other names make no difference. -/
theorem filter_known (hname : names.contains name = true) :
    (members.filter fun (name, _) => names.contains name).filter (·.1 == name) = members.filter (·.1 == name) := by
  rw [List.filter_filter]
  refine List.filter_congr fun member _ => ?_
  by_cases hmember : member.1 = name
  · simp only [hmember, beq_self_eq_true, Bool.true_and]
    exact hname
  · simp only [beq_eq_false_iff_ne.mpr hmember, Bool.false_and]

theorem lookup_of_filter (members : List (String × Json)) (name : String) :
    members.lookup name = ((members.filter (·.1 == name)).head?).map Prod.snd := by
  induction members with
  | nil => rfl
  | cons member members ih =>
      obtain ⟨other, value⟩ := member
      by_cases hother : other = name
      · rw [List.filter_cons_of_pos (by simpa using hother), hother, List.lookup_cons_self]
        rfl
      · have hkey : (name == other) = false := beq_eq_false_iff_ne.mpr (Ne.symm hother)
        rw [List.filter_cons_of_neg (by simpa using hother), List.lookup_cons, hkey]
        exact ih

section

variable {α : Type} {fields : Fields} {decode : Decoder α} {value : α}

theorem withDefault_of_isSection (hfields : fields? names (.object members) = some fields)
    (hname : names.contains name = true) (h : IsSection members name decode value) (default : α) :
    fields.withDefault name default decode = some value := by
  obtain ⟨json, hjson, hdecode⟩ := h
  obtain ⟨rfl, -⟩ := fields?_eq_some.mp hfields
  rw [Fields.withDefault, lookup_of_filter, filter_known hname, hjson]
  exact hdecode

/-- A section can be decoded just when there is nothing wrong with it. -/
theorem isSound_iff (hfields : fields? names (.object members) = some fields) (hname : names.contains name = true)
    (default : α) : IsSound members name decode ↔ ∃ value, fields.withDefault name default decode = some value := by
  constructor
  · rintro (hnone | ⟨value, hsection⟩)
    · obtain ⟨rfl, -⟩ := fields?_eq_some.mp hfields
      refine ⟨default, ?_⟩
      rw [Fields.withDefault, lookup_of_filter, filter_known hname, hnone]
      rfl
    · exact ⟨value, withDefault_of_isSection hfields hname hsection default⟩
  · rintro ⟨value, hvalue⟩
    obtain ⟨rfl, hdistinct⟩ := fields?_eq_some.mp hfields
    have hle := distinct_iff.mp hdistinct name
    rw [Fields.withDefault, lookup_of_filter] at hvalue
    rw [filter_known hname] at hvalue hle
    rcases hfound : members.filter (·.1 == name) with _ | ⟨⟨other, json⟩, _ | ⟨second, rest⟩⟩
    · exact .inl hfound
    · have hother : (other, json) ∈ members.filter (·.1 == name) := by simp [hfound]
      have hsame : other = name := by simpa using (List.mem_filter.mp hother).2
      rw [hfound] at hvalue
      exact .inr ⟨value, json, by rw [hfound, hsame], hvalue⟩
    · rw [hfound, List.length_cons, List.length_cons] at hle
      omega

end

namespace Config

theorem decode_eq_some {json : Json} {config : Config} : Config.decode json = some config ↔
    ∃ fields, fields? ["export", "engine", "logging"] json = some fields ∧
      fields.withDefault "export" {} ExportSettings.decode = some config.remembered ∧
      fields.withDefault "engine" "ffmpeg" decodeEngine = some config.engine ∧
      fields.withDefault "logging" {} LogSettings.decode = some config.log := by
  constructor
  · intro h
    obtain ⟨fields, hfields, h⟩ := Option.bind_eq_some_iff.mp h
    obtain ⟨remembered, hremembered, h⟩ := Option.bind_eq_some_iff.mp h
    obtain ⟨engine, hengine, h⟩ := Option.bind_eq_some_iff.mp h
    obtain ⟨log, hlog, h⟩ := Option.bind_eq_some_iff.mp h
    cases h
    exact ⟨fields, hfields, hremembered, hengine, hlog⟩
  · rintro ⟨fields, hfields, hremembered, hengine, hlog⟩
    refine Option.bind_eq_some_iff.mpr ⟨fields, hfields, ?_⟩
    refine Option.bind_eq_some_iff.mpr ⟨_, hremembered, ?_⟩
    refine Option.bind_eq_some_iff.mpr ⟨_, hengine, ?_⟩
    exact Option.bind_eq_some_iff.mpr ⟨_, hlog, rfl⟩

theorem length_le_of_isSound {α : Type} {decode : Decoder α} (h : IsSound members name decode) :
    (members.filter (·.1 == name)).length ≤ 1 := by
  rcases h with hnone | ⟨value, json, hjson, -⟩
  · rw [hnone]
    exact Nat.zero_le 1
  · rw [hjson]
    exact Nat.le_refl 1

/-- A configuration file that is an object can be decoded just when there is nothing wrong with any
of its sections. -/
theorem isSome_decode_iff : (Config.decode (.object members)).isSome = true ↔
    IsSound members "export" ExportSettings.decode ∧ IsSound members "engine" decodeEngine ∧
      IsSound members "logging" LogSettings.decode := by
  constructor
  · intro h
    obtain ⟨config, hconfig⟩ := Option.isSome_iff_exists.mp h
    obtain ⟨fields, hfields, hremembered, hengine, hlog⟩ := decode_eq_some.mp hconfig
    exact ⟨(isSound_iff hfields rfl _).mpr ⟨_, hremembered⟩, (isSound_iff hfields rfl _).mpr ⟨_, hengine⟩,
      (isSound_iff hfields rfl _).mpr ⟨_, hlog⟩⟩
  · rintro ⟨hremembered, hengine, hlog⟩
    have hdistinct : Fields.distinct
        (members.filter fun (name, _) => ["export", "engine", "logging"].contains name) = true := by
      refine distinct_iff.mpr fun name => ?_
      cases hname : ["export", "engine", "logging"].contains name with
      | true =>
          rw [filter_known hname]
          rw [List.contains_iff_mem, List.mem_cons, List.mem_cons, List.mem_singleton] at hname
          rcases hname with rfl | rfl | rfl
          · exact length_le_of_isSound hremembered
          · exact length_le_of_isSound hengine
          · exact length_le_of_isSound hlog
      | false =>
          have hnone : (members.filter fun (name, _) => ["export", "engine", "logging"].contains name).filter
              (·.1 == name) = [] := by
            rw [List.filter_eq_nil_iff]
            rintro ⟨other, value⟩ hmember heq
            have hknown : ["export", "engine", "logging"].contains other = true := (List.mem_filter.mp hmember).2
            have hsame : other = name := beq_iff_eq.mp heq
            rw [hsame, hname] at hknown
            cases hknown
          rw [hnone]
          exact Nat.zero_le 1
    have hfields := fields?_eq_some.mpr ⟨rfl, hdistinct⟩
    obtain ⟨remembered, hremembered⟩ := (isSound_iff hfields rfl {}).mp hremembered
    obtain ⟨engine, hengine⟩ := (isSound_iff hfields rfl "ffmpeg").mp hengine
    obtain ⟨log, hlog⟩ := (isSound_iff hfields rfl {}).mp hlog
    exact Option.isSome_iff_exists.mpr
      ⟨⟨remembered, engine, log⟩, decode_eq_some.mpr ⟨_, hfields, hremembered, hengine, hlog⟩⟩

/-- A file that can be decoded has all its sections in the configuration. -/
theorem sections_of_decode {config : Config} (h : Config.decode (.object members) = some config) :
    (∀ {binary}, IsSection members "engine" decodeEngine binary → config.engine = binary) ∧
      ∀ {log}, IsSection members "logging" LogSettings.decode log → config.log = log := by
  obtain ⟨fields, hfields, -, hengine, hlog⟩ := decode_eq_some.mp h
  constructor
  · intro binary hsection
    rw [withDefault_of_isSection hfields rfl hsection] at hengine
    exact (Option.some.inj hengine).symm
  · intro log hsection
    rw [withDefault_of_isSection hfields rfl hsection] at hlog
    exact (Option.some.inj hlog).symm

/-- The sections beside the settings of a configuration that has been written. -/
theorem isSection_fileText {config : Config} {members : List (String × Json)}
    (h : Json.parse? config.fileText = some (.object members)) :
    (∀ {binary}, IsSection members "engine" decodeEngine binary ↔ config.engine = binary) ∧
      ∀ {log}, IsSection members "logging" LogSettings.decode log ↔ config.log = log := by
  rw [parse?_fileText_json] at h
  cases h
  constructor
  · intro binary
    constructor
    · rintro ⟨json, hjson, hdecode⟩
      cases hjson
      exact Option.some.inj hdecode
    · rintro rfl
      exact ⟨_, rfl, rfl⟩
  · intro log
    constructor
    · rintro ⟨json, hjson, hdecode⟩
      cases hjson
      exact Option.some.inj ((LogSettings.decode_encode config.log).symm.trans hdecode)
    · rintro rfl
      exact ⟨_, rfl, LogSettings.decode_encode config.log⟩

end Config

namespace FileTree

open Config

variable {files files' : FileTree} {path : Path} {text time : String} {settings : ExportSettings}

theorem loadConfig_eq (hread : files.read path = .ok text) (hparse : Json.parse? text = some (.object members)) :
    files.loadConfig path = (Config.decode (.object members)).getD {} := by
  rw [loadConfig, hread]
  change ((Json.parse? text).bind Config.decode).getD {} = _
  rw [hparse, Option.bind_some]

theorem rememberExport_cases {result : Except Failure Unit}
    (h : files.rememberExport path settings time = (files', result)) :
    result = .ok () ∧ files'.read path = .ok ((files.loadConfig path).remember settings time).fileText ∨
      (∃ failure, result = .error failure) ∧ files.Retains files' path := by
  unfold rememberExport at h
  dsimp only at h
  generalize hsaved : files.saveConfig path _ = saved at h
  obtain ⟨between, saved⟩ := saved
  cases h
  rcases writeBelow_cases hsaved with ⟨rfl, hread⟩ | ⟨⟨error, rfl⟩, hretains⟩
  · exact .inl ⟨rfl, hread⟩
  · exact .inr ⟨⟨_, rfl⟩, hretains⟩

/-- A part of a configuration that has a value in the file, if that can be decoded, and is as by
default otherwise. -/
theorem part_eq_iff {α : Type} (part : Config → α) {decoded : Option Config} {value : α}
    (h : ∀ {config}, decoded = some config → part config = value) :
    part (decoded.getD {}) = value ↔ decoded.isSome = true ∨ value = part {} := by
  cases decoded with
  | some config => exact iff_of_true (h rfl) (.inl rfl)
  | none =>
      constructor
      · intro hdefault
        exact .inr hdefault.symm
      · rintro (hsome | hdefault)
        · cases hsome
        · exact hdefault.symm

/-- **Other sections.** When an export is remembered in a configuration file that is an object, each
of its engine and log sections that is well-formed is kept just when nothing is wrong with the two
other sections either, or the section is as it is by default, or the file is not written at all. -/
theorem isSection_rememberExport_iff {result : Except Failure Unit} (hread : files.read path = .ok text)
    (hparse : Json.parse? text = some (.object members))
    (hremember : files.rememberExport path settings time = (files', result)) :
    ∃ text' members', files'.read path = .ok text' ∧ Json.parse? text' = some (.object members') ∧
      (∀ binary, IsSection members "engine" decodeEngine binary →
        (IsSection members' "engine" decodeEngine binary ↔
          IsSound members "export" ExportSettings.decode ∧ IsSound members "logging" LogSettings.decode ∨
            binary = ({} : Config).engine ∨ ∃ failure, result = .error failure)) ∧
      ∀ log, IsSection members "logging" LogSettings.decode log →
        (IsSection members' "logging" LogSettings.decode log ↔
          IsSound members "export" ExportSettings.decode ∧ IsSound members "engine" decodeEngine ∨
            log = ({} : Config).log ∨ ∃ failure, result = .error failure) := by
  rcases rememberExport_cases hremember with ⟨rfl, hread'⟩ | ⟨hrefused, hretains⟩
  · obtain ⟨hengine, hlog⟩ := isSection_fileText (parse?_fileText_json _)
    have hwritten : ¬ ∃ failure, (.ok () : Except Failure Unit) = .error failure := by
      rintro ⟨failure, hfailure⟩
      cases hfailure
    refine ⟨_, _, hread', parse?_fileText_json _, fun binary hsection => ?_, fun log hsection => ?_⟩
    · have hsound : (Config.decode (.object members)).isSome = true ↔
          IsSound members "export" ExportSettings.decode ∧ IsSound members "logging" LogSettings.decode := by
        have hengineSound : IsSound members "engine" decodeEngine := .inr ⟨binary, hsection⟩
        rw [isSome_decode_iff, and_iff_right hengineSound]
      rw [hengine, loadConfig_eq hread hparse, or_iff_left hwritten, ← hsound]
      exact part_eq_iff Config.engine fun hconfig => (sections_of_decode hconfig).1 hsection
    · have hsound : (Config.decode (.object members)).isSome = true ↔
          IsSound members "export" ExportSettings.decode ∧ IsSound members "engine" decodeEngine := by
        have hlogSound : IsSound members "logging" LogSettings.decode := .inr ⟨log, hsection⟩
        rw [isSome_decode_iff, and_iff_left hlogSound]
      rw [hlog, loadConfig_eq hread hparse, or_iff_left hwritten, ← hsound]
      exact part_eq_iff Config.log fun hconfig => (sections_of_decode hconfig).2 hsection
  · refine ⟨text, members, hretains.read hread, hparse, fun binary hsection => ?_, fun log hsection => ?_⟩
    · exact iff_of_true hsection (.inr (.inr hrefused))
    · exact iff_of_true hsection (.inr (.inr hrefused))

/-- A configuration with an engine of its own, and with an export section that is not well-formed. -/
def strayMembers : List (String × Json) :=
  [("export", .object [("format", .string "ogg")]), ("engine", .object [("binary", .string "/opt/ffmpeg")])]

def stray : FileTree where
  entries := [(["config.json"], .file (Json.object strayMembers).pretty false)]

theorem parse?_stray : Json.parse? (Json.object strayMembers).pretty = some (.object strayMembers) :=
  parse?_pretty (.object strayMembers)

theorem isSection_rememberExport_iff_stray :
    ∃ files' result text' members', stray.read ⟨"config.json"⟩ = .ok (Json.object strayMembers).pretty ∧
      Json.parse? (Json.object strayMembers).pretty = some (.object strayMembers) ∧
      stray.rememberExport ⟨"config.json"⟩ {} "now" = (files', result) ∧
      files'.read ⟨"config.json"⟩ = .ok text' ∧ Json.parse? text' = some (.object members') ∧
      (IsSection members' "engine" decodeEngine "/opt/ffmpeg" ↔
        IsSound strayMembers "export" ExportSettings.decode ∧ IsSound strayMembers "logging" LogSettings.decode ∨
          "/opt/ffmpeg" = ({} : Config).engine ∨ ∃ failure, result = .error failure) := by
  have hread : stray.read ⟨"config.json"⟩ = .ok (Json.object strayMembers).pretty := rfl
  obtain ⟨text', members', hread', hparse', hengine, -⟩ :=
    @isSection_rememberExport_iff strayMembers stray _ ⟨"config.json"⟩ _ "now" {} _ hread parse?_stray rfl
  exact ⟨_, _, text', members', hread, parse?_stray, rfl, hread', hparse', hengine _ ⟨_, rfl, rfl⟩⟩

/-- An engine is lost because of an export section that is not well-formed. -/
theorem lost_of_stray :
    ∃ files' text' members', stray.read ⟨"config.json"⟩ = .ok (Json.object strayMembers).pretty ∧
      Json.parse? (Json.object strayMembers).pretty = some (.object strayMembers) ∧
      stray.rememberExport ⟨"config.json"⟩ {} "now" = (files', .ok ()) ∧
      files'.read ⟨"config.json"⟩ = .ok text' ∧ Json.parse? text' = some (.object members') ∧
      IsSection strayMembers "engine" decodeEngine "/opt/ffmpeg" ∧
      ¬ IsSection members' "engine" decodeEngine "/opt/ffmpeg" := by
  have hread : stray.read ⟨"config.json"⟩ = .ok (Json.object strayMembers).pretty := rfl
  have hremember : stray.rememberExport ⟨"config.json"⟩ {} "now" = (_, .ok ()) := rfl
  rcases rememberExport_cases hremember with ⟨-, hread'⟩ | ⟨⟨failure, hfailure⟩, -⟩
  · refine ⟨_, _, _, hread, parse?_stray, hremember, hread', parse?_fileText_json _, ⟨_, rfl, rfl⟩, ?_⟩
    rw [(isSection_fileText (parse?_fileText_json _)).1]
    have hload : stray.loadConfig ⟨"config.json"⟩ = {} := loadConfig_eq hread parse?_stray
    rw [hload]
    decide
  · cases hfailure

end FileTree

end Segue
