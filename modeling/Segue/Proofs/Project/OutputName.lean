import Segue.Cue.Sheet
import Segue.Project.OutputName
import Segue.Proofs.Files.Extensions

/-!
The file that a mix is rendered to when the user names none, and its cue sheet. Main statements: the
file is a child of the project's directory whatever the mix is called; so is the sheet, which is
another file, unless the mix is called by a lone dot; and the sheet leads back to the name of the
file.
-/

namespace Segue

open Segue.Path

variable {name : String}

theorem AudioFormat.extension_spec (format : AudioFormat) :
    format.extension ≠ "" ∧ '.' ∉ format.extension.toList ∧ '/' ∉ format.extension.toList ∧
      format.extension ≠ "cue" := by
  cases format <;> decide

/-- What a file name has in place of a character. -/
def charInName (c : Char) : Char := if keepsInName c then c else '_'

theorem charInName_eq_dot {c : Char} : charInName c = '.' ↔ c = '.' := by
  constructor
  · intro h
    unfold charInName at h
    split at h
    · exact h
    · cases h
  · rintro rfl
    decide +kernel

theorem charInName_ne_slash (c : Char) : charInName c ≠ '/' := by
  intro h
  unfold charInName at h
  split at h
  · rename_i hkept
    rw [h] at hkept
    exact absurd hkept (by decide +kernel)
  · cases h

theorem outputStem_cases (name : String) :
    (Text.trim name).map charInName = "" ∧ outputStem name = "mix" ∨
      (Text.trim name).map charInName ≠ "" ∧ outputStem name = (Text.trim name).map charInName := by
  unfold outputStem
  dsimp only
  split
  · rename_i hempty
    exact .inl ⟨hempty, rfl⟩
  · rename_i hne
    exact .inr ⟨hne, rfl⟩

theorem outputStem_ne_empty (name : String) : outputStem name ≠ "" := by
  rcases outputStem_cases name with ⟨-, heq⟩ | ⟨hne, heq⟩
  · rw [heq]
    decide
  · rw [heq]
    exact hne

theorem slash_notMem_outputStem (name : String) : '/' ∉ (outputStem name).toList := by
  rcases outputStem_cases name with ⟨-, heq⟩ | ⟨-, heq⟩
  · rw [heq]
    decide
  · rw [heq, String.toList_map]
    intro hslash
    obtain ⟨c, -, hc⟩ := List.mem_map.mp hslash
    exact charInName_ne_slash c hc

theorem outputStem_eq_dot : outputStem name = "." ↔ Text.trim name = "." := by
  have hmap : (Text.trim name).map charInName = "." ↔ Text.trim name = "." := by
    rw [← String.toList_inj, String.toList_map, ← String.toList_inj]
    change (Text.trim name).toList.map charInName = ['.'] ↔ (Text.trim name).toList = ['.']
    rw [List.map_eq_singleton_iff]
    constructor
    · rintro ⟨c, htext, hc⟩
      rw [htext, charInName_eq_dot.mp hc]
    · intro htext
      exact ⟨'.', htext, charInName_eq_dot.mpr rfl⟩
  rcases outputStem_cases name with ⟨hempty, heq⟩ | ⟨-, heq⟩
  · rw [heq, ← hmap, hempty]
    decide
  · rw [heq, hmap]

namespace Mix

variable {α : Type} (mix : Mix α) (format : AudioFormat)

def outputName : String := outputStem mix.project.name ++ "." ++ format.extension

def sheetName : String := outputStem mix.project.name ++ "." ++ "cue"

theorem slash_notMem_outputName : '/' ∉ (mix.outputName format).toList := by
  obtain ⟨-, -, hslash, -⟩ := format.extension_spec
  rw [outputName, String.toList_append, String.toList_append, List.mem_append, List.mem_append, not_or, not_or]
  exact ⟨⟨slash_notMem_outputStem _, by decide⟩, hslash⟩

theorem slash_notMem_sheetName : '/' ∉ mix.sheetName.toList := by
  rw [sheetName, String.toList_append, String.toList_append, List.mem_append, List.mem_append, not_or, not_or]
  exact ⟨⟨slash_notMem_outputStem _, by decide⟩, by decide⟩

theorem stem_outputName : stem (mix.outputName format) = outputStem mix.project.name :=
  stem_extended (outputStem_ne_empty _) format.extension_spec.2.1

theorem stem_sheetName : stem mix.sheetName = outputStem mix.project.name :=
  stem_extended (outputStem_ne_empty _) (by decide)

/-- The name of the sheet is neither idle nor a step up. -/
theorem plain_sheetName : isIdle mix.sheetName = false ∧ mix.sheetName ≠ ".." := by
  have hdot : '.' ∉ "cue".toList := by decide
  exact plain_extended (by decide) hdot (outputStem mix.project.name)

theorem ends_defaultOutput : (mix.defaultOutput format).Ends mix.root.stepsTo (mix.outputName format) [] := by
  obtain ⟨hne, hdot, -, -⟩ := format.extension_spec
  obtain ⟨hplain, hup⟩ := plain_extended hne hdot (outputStem mix.project.name)
  exact ends_join mix.root (mix.slash_notMem_outputName format) hplain hup

/-- The file is a child of the project's directory. -/
theorem isChild_defaultOutput : IsChild mix.root (mix.defaultOutput format) := by
  obtain ⟨-, -, hplain, hup⟩ := mix.ends_defaultOutput format
  exact ⟨mix.outputName format, mix.slash_notMem_outputName format, hplain, hup, rfl⟩

theorem fileName?_defaultOutput : (mix.defaultOutput format).fileName? = some (mix.outputName format) :=
  fileName?_eq_some.mpr ⟨_, _, mix.ends_defaultOutput format⟩

/-- Where the sheet of the file is. -/
theorem pathBeside_defaultOutput : CueSheet.pathBeside (mix.defaultOutput format) =
    mix.root.join ⟨if Text.trim mix.project.name = "." then ".." else mix.sheetName⟩ := by
  have hname : extendName true (mix.outputName format) "cue" =
      if Text.trim mix.project.name = "." then ".." else mix.sheetName := by
    rw [extendName, stem_outputName, Bool.true_and]
    simp only [beq_iff_eq, outputStem_eq_dot]
    rfl
  rw [join_eq_ofSteps, CueSheet.pathBeside, (mix.ends_defaultOutput format).withExtension_eq, ← hname]
  · rfl
  · split
    · decide
    · exact mix.slash_notMem_sheetName

theorem pathBeside_defaultOutput_of_ne (hdot : Text.trim mix.project.name ≠ ".") :
    CueSheet.pathBeside (mix.defaultOutput format) = mix.root.join ⟨mix.sheetName⟩ := by
  rw [pathBeside_defaultOutput, if_neg hdot]

/-- The sheet is a child of the project's directory too, but not that of a mix that is called by a
lone dot. -/
theorem isChild_sheet_iff : IsChild mix.root (CueSheet.pathBeside (mix.defaultOutput format)) ↔
    Text.trim mix.project.name ≠ "." := by
  constructor
  · rintro ⟨name, hslash, -, hup, heq⟩ hdot
    rw [pathBeside_defaultOutput, if_pos hdot] at heq
    exact hup (join_inj (by decide) hslash heq).symm
  · intro hdot
    obtain ⟨hplain, hup⟩ := mix.plain_sheetName
    exact ⟨mix.sheetName, mix.slash_notMem_sheetName, hplain, hup, mix.pathBeside_defaultOutput_of_ne format hdot⟩

/-- The sheet is not written to the file. -/
theorem sheet_ne_defaultOutput : CueSheet.pathBeside (mix.defaultOutput format) ≠ mix.defaultOutput format := by
  intro heq
  rw [pathBeside_defaultOutput] at heq
  have hname := join_inj ?_ (mix.slash_notMem_outputName format) heq
  · split at hname
    · exact (mix.ends_defaultOutput format).up hname.symm
    · have hextension := String.append_right_inj _ |>.mp hname
      exact format.extension_spec.2.2.2 hextension.symm
  · split
    · decide
    · exact mix.slash_notMem_sheetName

/-- From the sheet one comes back to the name of the file. -/
theorem fileName?_beside_sheet (hdot : Text.trim mix.project.name ≠ ".") :
    ((CueSheet.pathBeside (mix.defaultOutput format)).withExtension format.extension).fileName? =
      some (mix.outputName format) := by
  obtain ⟨hplain, hup⟩ := mix.plain_sheetName
  have hends := ends_join mix.root mix.slash_notMem_sheetName hplain hup
  have hname : extendName true mix.sheetName format.extension = mix.outputName format := by
    rw [extendName, stem_sheetName, Bool.true_and, if_neg]
    · rfl
    · simpa [outputStem_eq_dot] using hdot
  obtain ⟨hsteps, hidle, hplain', hup'⟩ := mix.ends_defaultOutput format
  refine fileName?_eq_some.mpr ⟨mix.root.stepsTo, [], ?_, hidle, hplain', hup'⟩
  rw [pathBeside_defaultOutput_of_ne _ _ hdot, hends.steps_withExtension format.extension_spec.2.2.1,
    List.isEmpty_nil, hname]

end Mix

end Segue
