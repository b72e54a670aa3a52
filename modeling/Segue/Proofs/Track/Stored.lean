import Segue.Proofs.Json.Records
import Segue.Proofs.Project.Finite
import Segue.Track.Record

/-!
Tracks as they are written. Main statement: a track is read back, with all its parts, when its
numbers are.
-/

namespace Segue

open Json

theorem Curve.decode_name (curve : Curve) : Curve.decode (.string curve.name) = some curve := by
  cases curve <;> decide

theorem CueKind.decode_name (kind : CueKind) : CueKind.decode (.string kind.name) = some kind := by
  cases kind <;> decide

namespace RemovedRegion

variable {region : RemovedRegion Float}

theorem decode_encode (region : RemovedRegion Float) : RemovedRegion.decode region.encode = some region := rfl

theorem kept_encode (h : ReadsBack region.start ∧ ReadsBack region.stop) : region.encode.kept = region.encode := by
  obtain ⟨hstart, hstop⟩ := h
  refine kept_object ?_
  simp [kept, keptFloat_of_readsBack hstart, keptFloat_of_readsBack hstop]

end RemovedRegion

namespace TempoRegion

variable {region : TempoRegion Float}

theorem decode_encode (region : TempoRegion Float) : TempoRegion.decode region.encode = some region := rfl

theorem kept_encode (h : ReadsBack region.start ∧ ReadsBack region.stop ∧ ReadsBack region.ramp) :
    region.encode.kept = region.encode := by
  obtain ⟨hstart, hstop, hramp⟩ := h
  refine kept_object ?_
  simp [kept, keptFloat_of_readsBack hstart, keptFloat_of_readsBack hstop, keptFloat_of_readsBack hramp]

end TempoRegion

namespace VolumePoint

variable {point : VolumePoint Float}

theorem decode_encode (point : VolumePoint Float) : VolumePoint.decode point.encode = some point := rfl

theorem kept_encode (h : ReadsBack point.time ∧ ReadsBack point.value) : point.encode.kept = point.encode := by
  obtain ⟨htime, hvalue⟩ := h
  refine kept_object ?_
  simp [kept, keptFloat_of_readsBack htime, keptFloat_of_readsBack hvalue]

end VolumePoint

namespace Measurement

variable {measured : Measurement Float}

theorem decode_encode (measured : Measurement Float) : Measurement.decode measured.encode = some measured := rfl

theorem kept_encode (h : ReadsBack measured.integrated ∧ ReadsBack measured.truePeak ∧ ReadsBack measured.range ∧
    ReadsBack measured.threshold) : measured.encode.kept = measured.encode := by
  obtain ⟨hintegrated, hpeak, hrange, hthreshold⟩ := h
  refine kept_object ?_
  simp [kept, keptFloat_of_readsBack hintegrated, keptFloat_of_readsBack hpeak, keptFloat_of_readsBack hrange,
    keptFloat_of_readsBack hthreshold]

end Measurement

namespace CuePoint

variable {cue : CuePoint Float}

theorem decode_encode (cue : CuePoint Float) : CuePoint.decode cue.encode = some cue := by
  have hfields : fields? ["time_secs", "label", "kind"] cue.encode = some _ := fields?_object (by decide) rfl
  rw [decode, hfields, Option.bind_eq_bind, Option.bind_some]
  refine Option.bind_eq_some_iff.mpr ⟨cue.time, rfl, ?_⟩
  refine Option.bind_eq_some_iff.mpr ⟨cue.label, Fields.optional_eq rfl recovers_string, ?_⟩
  exact Option.bind_eq_some_iff.mpr ⟨cue.kind, CueKind.decode_name cue.kind, rfl⟩

theorem kept_encode (htime : ReadsBack cue.time) : cue.encode.kept = cue.encode := by
  refine kept_object ?_
  simp [kept, keptFloat_of_readsBack htime, kept_ofOption_string]

end CuePoint

namespace Track

variable {track : Track Float}

theorem kept_encode (hposition : track.position < 2 ^ 32) (hnumbers : ∀ x ∈ track.numbers, ReadsBack x) :
    track.encode.kept = track.encode := by
  have hnat : keptInt track.position = .int track.position :=
    keptInt_natCast (Nat.lt_of_lt_of_le hposition (by decide))
  have hfloat : ∀ number : Option Float, (∀ x ∈ number, ReadsBack x) →
      (ofOption .float number).kept = ofOption .float number :=
    fun _ h => kept_ofOption fun x hx => keptFloat_of_readsBack (h x hx)
  -- the numbers of each field, as the fields come in the record
  simp only [numbers, List.forall_mem_cons, List.forall_mem_append, List.forall_mem_flatMap, List.forall_mem_map,
    List.not_mem_nil, IsEmpty.forall_iff, implies_true, and_true, Option.mem_toList] at hnumbers
  obtain ⟨hduration, ⟨⟨⟨⟨⟨⟨⟨⟨htrimStart, htrimEnd⟩, hremoved⟩, hrate⟩, hregion⟩, hgain⟩, henvelope⟩, hcrossfade⟩,
    hloudness⟩, hcues⟩ := hnumbers
  refine kept_object ?_
  simp only [List.forall_mem_cons, List.not_mem_nil, IsEmpty.forall_iff, implies_true, and_true]
  exact ⟨hnat, rfl, kept_ofOption_string _, rfl, keptFloat_of_readsBack hduration, hfloat _ htrimStart,
    hfloat _ htrimEnd, kept_list fun region h => RemovedRegion.kept_encode (hremoved region h),
    hfloat _ hrate, kept_ofOption fun region h => TempoRegion.kept_encode (hregion region h), hfloat _ hgain,
    kept_list fun point h => VolumePoint.kept_encode (henvelope point h),
    hfloat _ hcrossfade, kept_ofOption fun _ _ => rfl,
    kept_ofOption fun measured h => Measurement.kept_encode (hloudness measured h),
    kept_list fun cue h => CuePoint.kept_encode (hcues cue h)⟩

theorem decode_encode (hposition : track.position < 2 ^ 32) : Track.decode track.encode = some track := by
  have hfields : fields? fieldNames track.encode = some _ := fields?_object (by decide) rfl
  -- one field after the other, as the decoder takes them
  rw [decode, hfields, Option.bind_eq_bind, Option.bind_some]
  refine Option.bind_eq_some_iff.mpr ⟨track.position, Fields.required_eq rfl (asNatBelow_natCast hposition), ?_⟩
  refine Option.bind_eq_some_iff.mpr ⟨track.title, Fields.required_eq rfl rfl, ?_⟩
  refine Option.bind_eq_some_iff.mpr ⟨track.artist, Fields.optional_eq rfl recovers_string, ?_⟩
  refine Option.bind_eq_some_iff.mpr ⟨track.source.text, Fields.required_eq rfl rfl, ?_⟩
  refine Option.bind_eq_some_iff.mpr ⟨track.duration, Fields.required_eq rfl rfl, ?_⟩
  refine Option.bind_eq_some_iff.mpr ⟨track.trimStart, Fields.optional_eq rfl recovers_float, ?_⟩
  refine Option.bind_eq_some_iff.mpr ⟨track.trimEnd, Fields.optional_eq rfl recovers_float, ?_⟩
  refine Option.bind_eq_some_iff.mpr
    ⟨track.removed, Fields.listOf_eq rfl fun region _ => RemovedRegion.decode_encode region, ?_⟩
  refine Option.bind_eq_some_iff.mpr ⟨track.tempoRate, Fields.optional_eq rfl recovers_float, ?_⟩
  refine Option.bind_eq_some_iff.mpr
    ⟨track.tempoRegion, Fields.optional_eq rfl ⟨fun _ => nofun, TempoRegion.decode_encode⟩, ?_⟩
  refine Option.bind_eq_some_iff.mpr ⟨track.gain, Fields.optional_eq rfl recovers_float, ?_⟩
  refine Option.bind_eq_some_iff.mpr
    ⟨track.envelope, Fields.listOf_eq rfl fun point _ => VolumePoint.decode_encode point, ?_⟩
  refine Option.bind_eq_some_iff.mpr ⟨track.crossfade, Fields.optional_eq rfl recovers_float, ?_⟩
  refine Option.bind_eq_some_iff.mpr
    ⟨track.curve, Fields.optional_eq rfl ⟨fun _ => nofun, Curve.decode_name⟩, ?_⟩
  refine Option.bind_eq_some_iff.mpr
    ⟨track.loudness, Fields.optional_eq rfl ⟨fun _ => nofun, Measurement.decode_encode⟩, ?_⟩
  refine Option.bind_eq_some_iff.mpr
    ⟨track.cuePoints, Fields.listOf_eq rfl fun cue _ => CuePoint.decode_encode cue, ?_⟩
  rfl

end Track

end Segue
