import Segue.Proofs.Json.Finite
import Segue.Proofs.Project.Finite
import Segue.Proofs.Project.Stored

/-!
Projects as they are read. Main statement: the numbers of a project that is read are finite.
-/

namespace Segue

open Json

theorem RemovedRegion.yields_decode :
    Yields RemovedRegion.decode fun region => ∀ x ∈ [region.start, region.stop], x.isFinite = true := by
  refine ⟨fun hjson hdecode => ?_⟩
  simp only [decode, Option.bind_eq_bind, Option.bind_eq_some_iff, Option.pure_def, Option.some.injEq] at hdecode
  obtain ⟨fields, hfields, start, hstart, stop, hstop, enabled, -, rfl⟩ := hdecode
  have hfinite := fields?_areFinite.holds hjson hfields
  simpa using ⟨yields_asFloat.required hfinite hstart, yields_asFloat.required hfinite hstop⟩

theorem TempoRegion.yields_decode :
    Yields TempoRegion.decode fun region => ∀ x ∈ [region.start, region.stop, region.ramp], x.isFinite = true := by
  refine ⟨fun hjson hdecode => ?_⟩
  simp only [decode, Option.bind_eq_bind, Option.bind_eq_some_iff, Option.pure_def, Option.some.injEq] at hdecode
  obtain ⟨fields, hfields, start, hstart, stop, hstop, ramp, hramp, rfl⟩ := hdecode
  have hfinite := fields?_areFinite.holds hjson hfields
  simpa using ⟨yields_asFloat.required hfinite hstart, yields_asFloat.required hfinite hstop,
    yields_asFloat.required hfinite hramp⟩

theorem VolumePoint.yields_decode :
    Yields VolumePoint.decode fun point => ∀ x ∈ [point.time, point.value], x.isFinite = true := by
  refine ⟨fun hjson hdecode => ?_⟩
  simp only [decode, Option.bind_eq_bind, Option.bind_eq_some_iff, Option.pure_def, Option.some.injEq] at hdecode
  obtain ⟨fields, hfields, time, htime, value, hvalue, rfl⟩ := hdecode
  have hfinite := fields?_areFinite.holds hjson hfields
  simpa using ⟨yields_asFloat.required hfinite htime, yields_asFloat.required hfinite hvalue⟩

theorem Measurement.yields_decode :
    Yields Measurement.decode fun measured =>
      ∀ x ∈ [measured.integrated, measured.truePeak, measured.range, measured.threshold], x.isFinite = true := by
  refine ⟨fun hjson hdecode => ?_⟩
  simp only [decode, Option.bind_eq_bind, Option.bind_eq_some_iff, Option.pure_def, Option.some.injEq] at hdecode
  obtain ⟨fields, hfields, integrated, hintegrated, peak, hpeak, range, hrange, threshold, hthreshold, rfl⟩ := hdecode
  have hfinite := fields?_areFinite.holds hjson hfields
  simpa using ⟨yields_asFloat.required hfinite hintegrated, yields_asFloat.required hfinite hpeak,
    yields_asFloat.required hfinite hrange, yields_asFloat.required hfinite hthreshold⟩

theorem CuePoint.yields_decode : Yields CuePoint.decode fun cue => cue.time.isFinite = true := by
  refine ⟨fun hjson hdecode => ?_⟩
  simp only [decode, Option.bind_eq_bind, Option.bind_eq_some_iff, Option.pure_def, Option.some.injEq] at hdecode
  obtain ⟨fields, hfields, time, htime, label, -, kind, -, rfl⟩ := hdecode
  exact yields_asFloat.required (fields?_areFinite.holds hjson hfields) htime

theorem Track.yields_decode : Yields Track.decode fun track => ∀ x ∈ track.numbers, x.isFinite = true := by
  refine ⟨fun hjson hdecode => ?_⟩
  obtain ⟨fields, hfields, hdecode⟩ := Option.bind_eq_some_iff.mp hdecode
  have hfinite := fields?_areFinite.holds hjson hfields
  obtain ⟨position, -, hdecode⟩ := Option.bind_eq_some_iff.mp hdecode
  obtain ⟨title, -, hdecode⟩ := Option.bind_eq_some_iff.mp hdecode
  obtain ⟨artist, -, hdecode⟩ := Option.bind_eq_some_iff.mp hdecode
  obtain ⟨source, -, hdecode⟩ := Option.bind_eq_some_iff.mp hdecode
  obtain ⟨duration, hduration, hdecode⟩ := Option.bind_eq_some_iff.mp hdecode
  obtain ⟨trimStart, htrimStart, hdecode⟩ := Option.bind_eq_some_iff.mp hdecode
  obtain ⟨trimEnd, htrimEnd, hdecode⟩ := Option.bind_eq_some_iff.mp hdecode
  obtain ⟨removed, hremoved, hdecode⟩ := Option.bind_eq_some_iff.mp hdecode
  obtain ⟨tempoRate, htempoRate, hdecode⟩ := Option.bind_eq_some_iff.mp hdecode
  obtain ⟨tempoRegion, htempoRegion, hdecode⟩ := Option.bind_eq_some_iff.mp hdecode
  obtain ⟨gain, hgain, hdecode⟩ := Option.bind_eq_some_iff.mp hdecode
  obtain ⟨envelope, henvelope, hdecode⟩ := Option.bind_eq_some_iff.mp hdecode
  obtain ⟨crossfade, hcrossfade, hdecode⟩ := Option.bind_eq_some_iff.mp hdecode
  obtain ⟨curve, -, hdecode⟩ := Option.bind_eq_some_iff.mp hdecode
  obtain ⟨loudness, hloudness, hdecode⟩ := Option.bind_eq_some_iff.mp hdecode
  obtain ⟨cuePoints, hcuePoints, hdecode⟩ := Option.bind_eq_some_iff.mp hdecode
  cases hdecode
  have hremoved := RemovedRegion.yields_decode.listOf hfinite hremoved
  have hregion := TempoRegion.yields_decode.optional hfinite htempoRegion
  have henvelope := VolumePoint.yields_decode.listOf hfinite henvelope
  have hloudness := Measurement.yields_decode.optional hfinite hloudness
  have hcues := CuePoint.yields_decode.listOf hfinite hcuePoints
  refine List.forall_mem_cons.mpr ⟨yields_asFloat.required hfinite hduration, ?_⟩
  simp only [List.forall_mem_append, List.forall_mem_flatMap, List.forall_mem_map, Option.mem_toList, and_assoc]
  exact ⟨yields_asFloat.optional hfinite htrimStart, yields_asFloat.optional hfinite htrimEnd, hremoved,
    yields_asFloat.optional hfinite htempoRate, hregion, yields_asFloat.optional hfinite hgain, henvelope,
    yields_asFloat.optional hfinite hcrossfade, hloudness, hcues⟩

theorem Project.yields_decode : Yields Project.decode fun project => project.IsFinite := by
  refine ⟨fun hjson hdecode => ?_⟩
  simp only [decode, Option.bind_eq_bind, Option.bind_eq_some_iff, Option.pure_def, Option.some.injEq] at hdecode
  obtain ⟨fields, hfields, version, -, name, -, artist, -, tracks, htracks, metadata, -, rfl⟩ := hdecode
  exact Track.yields_decode.asList.required (fields?_areFinite.holds hjson hfields) htracks

/-- A project file has finite numbers only. -/
theorem Project.isFinite_of_parse? {text : String} {project : Project Float} (h : parse? text = some project) :
    project.IsFinite := by
  obtain ⟨json, hjson, hdecode⟩ := Option.bind_eq_some_iff.mp h
  exact Project.yields_decode.holds (Json.isFinite_of_parse? hjson) hdecode

theorem Project.IsFinite.sorted {project : Project Float} (h : project.IsFinite) : project.sorted.IsFinite :=
  fun track htrack => h track (project.perm_sorted.mem_iff.mp htrack)

/-- **Reading.** The numbers of a mix that is loaded are finite. -/
theorem FileTree.isFinite_of_loadMix {files : FileTree} {path : Path} {mix : Mix Float}
    (h : files.loadMix path = .ok mix) :
    mix.project.IsFinite := by
  unfold loadMix Mix.ofRead at h
  split at h
  · cases h
  · split at h
    · rename_i project hparse
      cases h
      exact (Project.isFinite_of_parse? hparse).sorted
    · cases h

end Segue
