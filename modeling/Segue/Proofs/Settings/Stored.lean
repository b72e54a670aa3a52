import Segue.Proofs.Files.Saving
import Segue.Proofs.Json.Records
import Segue.Settings.Store

/-!
The configuration file as it is written. Main statements: a configuration with settings that can be
stored is read back from its text, and where it has been saved it is loaded.
-/

namespace Segue

open Json

/-- Settings that are read back as they are written. -/
structure ExportSettings.IsStorable (settings : ExportSettings) : Prop where
  bitrate : settings.bitrate < 2 ^ 32
  crossfade : ReadsBack settings.defaultCrossfade

theorem Json.readsBack_zero : ReadsBack 0.0 := by decide +kernel

theorem ExportSettings.isStorable_default : ({} : ExportSettings).IsStorable where
  bitrate := by decide
  crossfade := Json.readsBack_zero

theorem AudioFormat.decode_extension (format : AudioFormat) :
    AudioFormat.decode (.string format.extension) = some format := by
  cases format <;> decide

namespace ExportSettings

theorem kept_encode {settings : ExportSettings} (h : settings.IsStorable) : settings.encode.kept = settings.encode := by
  have hbitrate : keptInt settings.bitrate = .int settings.bitrate :=
    keptInt_natCast (Nat.lt_of_lt_of_le h.bitrate (by decide))
  have hcrossfade := keptFloat_of_readsBack h.crossfade
  cases hlast : settings.lastExported with
  | none => simp [encode, hlast, ofOption, kept, keptMembers, hbitrate, hcrossfade]
  | some time => simp [encode, hlast, ofOption, kept, keptMembers, hbitrate, hcrossfade]

theorem decode_encode {settings : ExportSettings} (h : settings.bitrate < 2 ^ 32) :
    ExportSettings.decode settings.encode = some settings := by
  have hbitrate : asNatBelow (Nat.pow 2 32) (.int settings.bitrate) = some settings.bitrate := asNatBelow_natCast h
  -- one field after the other, as the decoder takes them
  refine Option.bind_eq_some_iff.mpr ⟨_, AudioFormat.decode_extension settings.format, ?_⟩
  refine Option.bind_eq_some_iff.mpr ⟨_, hbitrate, ?_⟩
  refine Option.bind_eq_some_iff.mpr ⟨settings.normalize, rfl, ?_⟩
  refine Option.bind_eq_some_iff.mpr ⟨settings.defaultCrossfade, rfl, ?_⟩
  refine Option.bind_eq_some_iff.mpr ⟨settings.writesCueSheet, rfl, ?_⟩
  exact Option.bind_eq_some_iff.mpr ⟨_, recovers_string.asOption_ofOption settings.lastExported, rfl⟩

end ExportSettings

namespace LogSettings

theorem kept_encode (log : LogSettings) : log.encode.kept = log.encode := by
  cases hfile : log.file with
  | none => simp [encode, hfile, ofOption, kept, keptMembers]
  | some file => simp [encode, hfile, ofOption, kept, keptMembers]

theorem decode_encode (log : LogSettings) : LogSettings.decode log.encode = some log := by
  obtain ⟨level, json, file⟩ := log
  cases file with
  | none => rfl
  | some file => rfl

end LogSettings

namespace Config

variable {config : Config}

theorem kept_encode (config : Config) : config.encode.kept =
    .object [("export", config.remembered.encode.kept), ("engine", .object [("binary", .string config.engine)]),
      ("logging", config.log.encode)] := by
  simp [encode, kept, keptMembers, LogSettings.kept_encode]

theorem decode_encode (h : config.remembered.bitrate < 2 ^ 32) : Config.decode config.encode = some config := by
  refine Option.bind_eq_some_iff.mpr ⟨_, ExportSettings.decode_encode h, ?_⟩
  refine Option.bind_eq_some_iff.mpr ⟨config.engine, rfl, ?_⟩
  exact Option.bind_eq_some_iff.mpr ⟨_, LogSettings.decode_encode config.log, rfl⟩

/-- What is read of a configuration file that has been written. -/
theorem parse?_fileText_json (config : Config) : Json.parse? config.fileText =
    some (.object [("export", config.remembered.encode.kept), ("engine", .object [("binary", .string config.engine)]),
      ("logging", config.log.encode)]) := by
  rw [fileText, parse?_pretty, kept_encode]

/-- **The text of a configuration** is read back when its settings can be stored. -/
theorem parse?_fileText (h : config.remembered.IsStorable) : parse? config.fileText = some config := by
  rw [parse?, parse?_fileText_json, ExportSettings.kept_encode h, Option.bind_some]
  exact decode_encode h.bitrate

theorem ofStored_fileText (h : config.remembered.IsStorable) : ofStored (some config.fileText) = config := by
  rw [ofStored, Option.bind_some, parse?_fileText h, Option.getD_some]

end Config

namespace FileTree

variable {files : FileTree} {path : Path}

theorem loadConfig_of_read {config : Config} (hread : files.read path = .ok config.fileText)
    (h : config.remembered.IsStorable) : files.loadConfig path = config := by
  rw [loadConfig, hread]
  exact Config.ofStored_fileText h

end FileTree

end Segue
