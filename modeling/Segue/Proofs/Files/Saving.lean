import Segue.Proofs.Files.Writing
import Segue.Settings.Store

/-!
Saving a file again. Main statement: where a file has been saved, it can be saved once more.
-/

namespace Segue.FileTree

variable {tree tree' : FileTree} {path : Path} {place place' : Place} {names : List String} {name text : String}

/-- Where a path leads is known when all its steps but the last lead to some place. -/
theorem target_of_walk {steps : List String} (makesFile : Bool) (hcheck : path.check = .ok ())
    (hsteps : (splitTrailing path).1 = steps ++ [name]) (hwalk : steps.foldlM tree.step (startOf path) = .ok place) :
    tree.target path makesFile =
      if Path.isIdle name ∨ name = ".." then do
        return (.taken (← tree.step place name), (splitTrailing path).2)
      else if tree.entry? place ≠ some .directory then .error .notDirectory
      else if makesFile ∧ (splitTrailing path).2 then .error .isDirectory
      else if place = .outside then .error .permissionDenied
      else do
        let names ← below place name
        match tree.entry? (.inside names) with
        | some _ => return (.taken (.inside names), (splitTrailing path).2)
        | none => return (.free names, (splitTrailing path).2) := by
  unfold FileTree.target
  cases hsplit : splitTrailing path with
  | mk front trailing =>
      rw [hsplit] at hsteps
      obtain rfl : front = steps ++ [name] := hsteps
      dsimp only
      rw [hcheck, List.getLast?_concat, List.dropLast_concat, hwalk]
      rfl

theorem target_of_start {makesFile : Bool} (hcheck : path.check = .ok ()) (hsteps : (splitTrailing path).1 = []) :
    tree.target path makesFile = .ok (.taken (startOf path), (splitTrailing path).2) := by
  unfold FileTree.target
  cases hsplit : splitTrailing path with
  | mk front trailing =>
      rw [hsplit] at hsteps
      obtain rfl : front = [] := hsteps
      rw [hcheck]
      rfl

theorem target_of_named (makesFile : Bool) (hcheck : path.check = .ok ()) (h : tree.Named path names)
    (htrailing : makesFile = true → (splitTrailing path).2 = false) :
    tree.target path makesFile = match tree.entry? (.inside names) with
      | some _ => .ok (.taken (.inside names), (splitTrailing path).2)
      | none => .ok (.free names, (splitTrailing path).2) := by
  obtain ⟨hsteps, hwalk, hidle, hup, hdirectory, hbelow⟩ := h
  rw [target_of_walk makesFile hcheck hsteps hwalk, if_neg (by simp [hidle, hup]), hdirectory,
    if_neg (not_not_intro rfl), if_neg, if_neg, hbelow]
  · rfl
  · rintro rfl
    cases hbelow
  · rintro ⟨hfile, hends⟩
    cases hends.symm.trans (htrailing hfile)

theorem isDirectory_iff : tree.isDirectory path = true ↔
    ∃ place, tree.find path = .ok place ∧ tree.entry? place = some .directory := by
  unfold isDirectory
  cases tree.find path with
  | error error => simp
  | ok place => simp

/-- A directory is still there when a file has been written. -/
theorem isDirectory_of_write {other : Path} (h : tree.write other text = .ok tree')
    (hdirectory : tree.isDirectory path = true) : tree'.isDirectory path = true := by
  obtain ⟨place, hfind, hplace⟩ := isDirectory_iff.mp hdirectory
  obtain ⟨hcheck, hwalk, -⟩ := find_eq_ok hfind
  obtain ⟨⟨names, executable, hnames, -, hfree, rfl⟩, -⟩ := written_of_write h
  have hkept : ∀ place, tree.entry? place = some .directory →
      entry? (tree.put names (.file text executable)) place = some .directory :=
    fun _ => entry?_put_of_directory hnames hfree _
  refine isDirectory_iff.mpr
    ⟨place, bind_eq_ok.mpr ⟨(), hcheck, walk_of_directories hkept hwalk ?_⟩, hkept place hplace⟩
  rw [hkept place hplace]
  exact Option.some_ne_none _

/-- Where something is, no directory can be made. -/
theorem makeDirectory_of_find (h : tree.find path = .ok place) : tree.makeDirectory path = .error .alreadyExists := by
  obtain ⟨hcheck, hwalk, -⟩ := find_eq_ok h
  obtain ⟨slashes, hslashes, -⟩ := splitTrailing_append path
  obtain ⟨reached, htarget⟩ : ∃ reached, tree.target path false = .ok (.taken reached, (splitTrailing path).2) := by
    rw [hslashes, List.foldlM_append] at hwalk
    obtain ⟨reached, hwalk, -⟩ := bind_eq_ok.mp hwalk
    rcases List.eq_nil_or_concat (splitTrailing path).1 with hnil | ⟨steps, name, hsteps⟩
    · exact ⟨_, target_of_start hcheck hnil⟩
    · rw [List.concat_eq_append] at hsteps
      rw [hsteps, List.foldlM_append] at hwalk
      obtain ⟨between, hfront, hstep⟩ := bind_eq_ok.mp hwalk
      obtain ⟨_, hstep, hend⟩ := bind_eq_ok.mp hstep
      cases hend
      refine ⟨reached, ?_⟩
      rw [target_of_walk false hcheck hsteps hfront]
      obtain ⟨hdirectory, ⟨hidle, -⟩ | ⟨-, hup, -⟩ | ⟨hidle, hup, names, hbelow, rfl, hentry⟩⟩ := step_eq_ok hstep
      · rw [if_pos (.inl hidle), hstep]
        rfl
      · rw [if_pos (.inr hup), hstep]
        rfl
      · have hnamed : tree.Named path names := .intro hsteps hfront hidle hup hdirectory hbelow
        rw [← target_of_walk false hcheck hsteps hfront, target_of_named false hcheck hnamed nofun]
        split
        · rfl
        · contradiction
  unfold makeDirectory
  rw [htarget]
  rfl

/-- A directory that is there is not made. -/
theorem makeDirectories_of_isDirectory (h : path.text = "" ∨ tree.isDirectory path = true) :
    tree.makeDirectories path = (tree, .ok ()) := by
  unfold makeDirectories makeDirectoriesUpTo
  split
  · rfl
  · rename_i hne
    have hdirectory := h.resolve_left hne
    obtain ⟨place, hfind, -⟩ := isDirectory_iff.mp hdirectory
    rw [makeDirectory_of_find hfind]
    dsimp only
    rw [if_pos hdirectory]

/-- A directory that has been made is there. -/
theorem isDirectory_of_makeDirectory (h : tree.makeDirectory path = .ok tree') : tree'.isDirectory path = true := by
  unfold makeDirectory at h
  obtain ⟨⟨target, trailing⟩, htarget, h⟩ := bind_eq_ok.mp h
  obtain ⟨hcheck, -, haims⟩ := target_eq_ok htarget
  cases haims with
  | @new names hnamed _ hentry =>
      cases h
      have hthere : entry? (tree.put names .directory) (.inside names) = some .directory := by
        rw [entry?_put hnamed.ne_nil, if_pos rfl]
      have hput := hnamed.put (by rw [hentry]; exact nofun) .directory
      have hfind := hput.find hcheck (by rw [hthere]; exact Option.some_ne_none _) (.inl hthere)
      exact isDirectory_iff.mpr ⟨_, hfind, hthere⟩
  | _ => cases h

theorem isDirectory_of_makeDirectories (h : tree.makeDirectories path = (tree', .ok ())) :
    path.text = "" ∨ tree'.isDirectory path = true := by
  have hthere : ∀ {made : FileTree} {error : FileError},
      (made, if made.isDirectory path then Except.ok () else .error error) = (tree', .ok ()) →
        tree'.isDirectory path = true := by
    intro made error heq
    obtain ⟨rfl, hresult⟩ := Prod.mk.inj heq
    split at hresult
    · assumption
    · cases hresult
  unfold makeDirectories makeDirectoriesUpTo at h
  split at h
  · exact .inl ‹_›
  · refine .inr ?_
    split at h
    · rename_i hmade
      cases h
      exact isDirectory_of_makeDirectory hmade
    · split at h
      · cases h
      · split at h
        · cases h
        · split at h
          · rename_i hmade
            cases h
            exact isDirectory_of_makeDirectory hmade
          · exact hthere h
    · exact hthere h

/-- A file that has been written can be written again. -/
theorem write_again (h : tree.write path text = .ok tree') (text' : String) :
    ∃ tree'', tree'.write path text' = .ok tree'' := by
  obtain ⟨hcheck, htrailing, names, executable, hnamed, hfree, rfl⟩ := write_eq_ok h
  have hentry : entry? (tree.put names (.file text executable)) (.inside names) = some (.file text executable) := by
    rw [entry?_put hnamed.ne_nil, if_pos rfl]
  have hput := hnamed.put hfree (.file text executable)
  have htarget := target_of_named true hcheck hput fun _ => htrailing
  rw [hentry] at htarget
  refine ⟨put (tree.put names (.file text executable)) names (.file text' executable), ?_⟩
  refine bind_eq_ok.mpr ⟨_, htarget, ?_⟩
  dsimp only
  rw [hentry]

/-- The tree with the directory of a file made, if the path names one. -/
def withDirectoryOf (tree : FileTree) (path : Path) : FileTree × Except FileError Unit :=
  match path.parent? with
  | some directory => tree.makeDirectories directory
  | none => (tree, .ok ())

theorem writeBelow_eq (tree : FileTree) (path : Path) (text : String) :
    tree.writeBelow path text = match tree.withDirectoryOf path with
      | (made, .error error) => (made, .error error)
      | (made, .ok ()) => match made.write path text with
        | .ok written => (written, .ok ())
        | .error error => (made, .error error) := by
  unfold writeBelow withDirectoryOf
  cases path.parent? with
  | none => rfl
  | some directory =>
      dsimp only
      rcases tree.makeDirectories directory with ⟨made, error | -⟩ <;> rfl

theorem writeBelow_eq_ok : tree.writeBelow path text = (tree', .ok ()) ↔
    ∃ made, tree.withDirectoryOf path = (made, .ok ()) ∧ made.write path text = .ok tree' := by
  rw [writeBelow_eq]
  constructor
  · intro h
    split at h
    · cases h
    · rename_i made hmade
      split at h
      · rename_i written hwrite
        cases h
        exact ⟨made, hmade, hwrite⟩
      · cases h
  · rintro ⟨made, hmade, hwrite⟩
    rw [hmade]
    dsimp only
    rw [hwrite]

/-- A file is saved, or the one that was there is still read. -/
theorem writeBelow_cases {result : Except FileError Unit} (h : tree.writeBelow path text = (tree', result)) :
    result = .ok () ∧ tree'.read path = .ok text ∨ (∃ error, result = .error error) ∧ tree.Retains tree' path := by
  have hretains : tree.Retains (tree.withDirectoryOf path).1 path := by
    unfold withDirectoryOf
    split
    · exact .makeDirectories tree _ path
    · exact .refl tree path
  rw [writeBelow_eq] at h
  split at h
  · rename_i made error hmade
    cases h
    rw [hmade] at hretains
    exact .inr ⟨⟨error, rfl⟩, hretains⟩
  · rename_i made hmade
    rw [hmade] at hretains
    split at h
    · rename_i written hwrite
      cases h
      exact .inl ⟨rfl, read_of_write hwrite⟩
    · rename_i error hwrite
      cases h
      exact .inr ⟨⟨error, rfl⟩, hretains⟩

/-- The directory of a file that has been written is there. -/
theorem withDirectoryOf_again {made : FileTree} (hmade : tree.withDirectoryOf path = (made, .ok ()))
    (hwrite : made.write path text = .ok tree') : tree'.withDirectoryOf path = (tree', .ok ()) := by
  unfold withDirectoryOf at hmade ⊢
  split
  · rename_i directory hparent
    rw [hparent] at hmade
    exact makeDirectories_of_isDirectory
      ((isDirectory_of_makeDirectories hmade).imp_right fun hthere => isDirectory_of_write hwrite hthere)
  · rfl

/-- **Saving.** What has been saved can be saved again. -/
theorem writeBelow_again (h : tree.writeBelow path text = (tree', .ok ())) (text' : String) :
    ∃ tree'', tree'.writeBelow path text' = (tree'', .ok ()) := by
  obtain ⟨made, hmade, hwrite⟩ := writeBelow_eq_ok.mp h
  obtain ⟨tree'', hagain⟩ := write_again hwrite text'
  exact ⟨tree'', writeBelow_eq_ok.mpr ⟨tree', withDirectoryOf_again hmade hwrite, hagain⟩⟩

end Segue.FileTree
