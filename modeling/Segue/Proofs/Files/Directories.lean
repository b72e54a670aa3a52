import Segue.Proofs.Files.Removal

/-!
What leaves the files alone. Main statements: making directories leaves every file as it was, and
deleting a file does not, but touches no other.
-/

namespace Segue

namespace FileTree

variable {tree tree' tree'' : FileTree} {place : Place} {names : List String}

/-- Two trees with the same files: the same texts at the same places. -/
def SameFiles (tree tree' : FileTree) : Prop :=
  ∀ place text executable,
    tree'.entry? place = some (.file text executable) ↔ tree.entry? place = some (.file text executable)

theorem SameFiles.refl (tree : FileTree) : tree.SameFiles tree := fun _ _ _ => Iff.rfl

theorem SameFiles.trans (h : tree.SameFiles tree') (h' : tree'.SameFiles tree'') : tree.SameFiles tree'' :=
  fun place text executable => (h' place text executable).trans (h place text executable)

theorem entry?_put_of_free (hfree : tree.entry? (.inside names) = none) (entry : Entry) (place : Place) :
    entry? (tree.put names entry) place = if place = .inside names then some entry else tree.entry? place := by
  cases names with
  | nil => cases hfree
  | cons name rest =>
      have hlookup : tree.entries.lookup (name :: rest) = none := hfree
      have hput : tree.put (name :: rest) entry = { entries := tree.entries ++ [(name :: rest, entry)] } := by
        unfold put
        rw [if_neg]
        rw [List.any_eq_true]
        rintro ⟨old, hold, hsame⟩
        have hother := List.lookup_eq_none_iff.mp hlookup old hold
        simp [(beq_iff_eq.mp hsame).symm] at hother
      rw [hput]
      match place with
      | .outside => rfl
      | .inside [] => rfl
      | .inside (first :: others) =>
          change (tree.entries ++ [(name :: rest, entry)]).lookup (first :: others) = _
          rw [List.lookup_append]
          by_cases hsame : first :: others = name :: rest
          · rw [hsame, hlookup, if_pos rfl]
            simp
          · have hother : ¬ Place.inside (first :: others) = .inside (name :: rest) := by simpa using hsame
            have hkey : (first :: others == name :: rest) = false := by simpa using hsame
            rw [if_neg hother, List.lookup_cons, hkey]
            exact Option.or_none

/-- Nothing is yet where something new could be. -/
theorem entry?_of_free {path : Path} {makesFile trailing : Bool}
    (h : tree.target path makesFile = .ok (.free names, trailing)) : tree.entry? (.inside names) = none := by
  obtain ⟨-, -, haims⟩ := target_eq_ok h
  cases haims with
  | new _ _ hentry => exact hentry

/-- A directory that has been made is where nothing was. -/
theorem makeDirectory_eq_ok {path : Path} (h : tree.makeDirectory path = .ok tree') :
    ∃ names, tree.entry? (.inside names) = none ∧ tree' = tree.put names .directory := by
  unfold FileTree.makeDirectory at h
  obtain ⟨⟨target, trailing⟩, htarget, h⟩ := bind_eq_ok.mp h
  split at h
  · rename_i names trailing' heq
    cases heq
    cases h
    exact ⟨names, entry?_of_free htarget, rfl⟩
  · cases h

/-- What holds between the trees before and behind the making of one directory holds between those
before and behind the making of several. -/
theorem makeDirectoriesUpTo_induction {p : FileTree → FileTree → Prop} (hrefl : ∀ tree, p tree tree)
    (htrans : ∀ {tree tree' tree''}, p tree tree' → p tree' tree'' → p tree tree'')
    (hmade : ∀ {tree tree' : FileTree} {path : Path}, tree.makeDirectory path = .ok tree' → p tree tree')
    (levels : Nat) (tree : FileTree) (path : Path) : p tree (FileTree.makeDirectoriesUpTo levels tree path).1 := by
  induction levels generalizing tree path with
  | zero => exact hrefl tree
  | succ levels ih =>
      rw [FileTree.makeDirectoriesUpTo]
      split
      · exact hrefl tree
      · split
        · rename_i made heq
          exact hmade heq
        · split
          · exact hrefl tree
          · rename_i parent hparent
            have habove := ih tree parent
            split
            · rename_i above error heq
              rw [heq] at habove
              exact habove
            · rename_i above heq
              rw [heq] at habove
              split
              · rename_i made heq
                exact htrans habove (hmade heq)
              · exact habove
        · exact hrefl tree

theorem SameFiles.makeDirectory {path : Path} (h : tree.makeDirectory path = .ok tree') : tree.SameFiles tree' := by
  obtain ⟨names, hfree, rfl⟩ := makeDirectory_eq_ok h
  intro place text executable
  rw [entry?_put_of_free hfree]
  split
  · rename_i hplace
    rw [hplace, hfree]
    exact ⟨nofun, nofun⟩
  · rfl

/-- **Making directories** leaves all files as they were. -/
theorem SameFiles.makeDirectories (tree : FileTree) (path : Path) : tree.SameFiles (tree.makeDirectories path).1 :=
  makeDirectoriesUpTo_induction SameFiles.refl SameFiles.trans SameFiles.makeDirectory _ tree path

/-- Deleting a file takes that away and nothing else. -/
theorem not_sameFiles_of_remove {path : Path} (h : tree.remove path = .ok tree') :
    ¬ tree.SameFiles tree' ∧ ∃ names, tree.find path = .ok (.inside names) ∧
      ∀ place, place ≠ .inside names → tree'.entry? place = tree.entry? place := by
  obtain ⟨steps, name, place, names, text, executable, hcheck, hsteps, hwalk, hstep, hfile, rfl⟩ := remove_eq_ok h
  refine ⟨?_, names, ?_, fun other hother => entry?_erase_of_ne hother⟩
  · intro hsame
    have hkept := (hsame (.inside names) text executable).mpr hfile
    rw [entry?_erase_self hfile] at hkept
    cases hkept
  · unfold find
    rw [hcheck, hsteps]
    change (steps ++ [name]).foldlM tree.step (startOf path) = _
    rw [List.foldlM_append, hwalk]
    change ([name].foldlM tree.step place) = _
    rw [List.foldlM_cons, hstep]
    rfl

end FileTree

end Segue
