import Segue.Proofs.Files.Directories

/-!
Writing a file, and the places of paths. Main statements: what has been written is read back, and
whatever is done by one path leaves the file of another path as it was when the two lead to
different places.
-/

namespace Segue

/-- The place one step further, if that step leads anywhere. -/
def Place.next (place : Place) (name : String) : Place :=
  if Path.isIdle name then place
  else if name = ".." then FileTree.above place
  else match place with
    | .outside => .outside
    | .inside names => .inside (names ++ [name])

/-- The only place that a path can lead to, whatever there is. -/
def Path.place (path : Path) : Place := path.steps.foldl Place.next (FileTree.startOf path)

namespace FileTree

variable {tree tree' tree'' : FileTree} {path other : Path} {place place' : Place} {names : List String}
  {name text : String}

theorem next_of_below (hidle : Path.isIdle name = false) (hup : name ≠ "..") (hbelow : below place name = .ok names) :
    place.next name = .inside names := by
  obtain ⟨before, rfl, rfl⟩ := below_eq_ok hbelow
  unfold Place.next
  rw [if_neg (by simp [hidle]), if_neg hup]

theorem next_of_step (hstep : tree.step place name = .ok place') : place.next name = place' := by
  obtain ⟨-, ⟨hidle, rfl⟩ | ⟨hidle, rfl, rfl⟩ | ⟨hidle, hup, names, hbelow, rfl, -⟩⟩ := step_eq_ok hstep
  · exact if_pos hidle
  · unfold Place.next
    rw [if_neg (by simp [hidle]), if_pos rfl]
  · exact next_of_below hidle hup hbelow

theorem next_of_walk {steps : List String} (hwalk : steps.foldlM tree.step place = .ok place') :
    steps.foldl Place.next place = place' := by
  induction steps generalizing place with
  | nil =>
      cases hwalk
      rfl
  | cons name steps ih =>
      obtain ⟨between, hstep, hwalk⟩ := bind_eq_ok.mp hwalk
      rw [List.foldl_cons, next_of_step hstep, ih hwalk]

theorem find_eq_ok (h : tree.find path = .ok place) :
    path.check = .ok () ∧ path.steps.foldlM tree.step (startOf path) = .ok place ∧ place = path.place := by
  obtain ⟨_, hcheck, hwalk⟩ := bind_eq_ok.mp h
  exact ⟨hcheck, hwalk, (next_of_walk hwalk).symm⟩

/-- Slashes at the end of a path are split off. -/
theorem splitTrailing_append (path : Path) :
    ∃ slashes, path.steps = (splitTrailing path).1 ++ slashes ∧ ∀ step ∈ slashes, step = "" := by
  have hreverse := congrArg List.reverse (List.takeWhile_append_dropWhile (p := (· == "")) (l := path.steps.reverse))
  rw [List.reverse_append, List.reverse_reverse] at hreverse
  refine ⟨_, hreverse.symm, fun step hstep => ?_⟩
  have hslash := List.all_eq_true.mp (List.all_takeWhile (p := (· == "")) (l := path.steps.reverse)) step
    (List.mem_reverse.mp hstep)
  exact beq_iff_eq.mp hslash

/-- They lead nowhere. -/
theorem foldl_splitTrailing (path : Path) (place : Place) :
    (splitTrailing path).1.foldl Place.next place = path.steps.foldl Place.next place := by
  obtain ⟨slashes, hsplit, hslashes⟩ := splitTrailing_append path
  have hidle : ∀ {steps : List String} (place : Place), (∀ step ∈ steps, step = "") →
      steps.foldl Place.next place = place := by
    intro steps place hsteps
    induction steps with
    | nil => rfl
    | cons step steps ih =>
        obtain ⟨hstep, hsteps⟩ := List.forall_mem_cons.mp hsteps
        rw [List.foldl_cons, hstep]
        exact ih hsteps
  rw [hsplit, List.foldl_append, hidle _ hslashes]

theorem Named.place_eq (h : tree.Named path names) : path.place = .inside names := by
  obtain ⟨hsteps, hwalk, hidle, hup, -, hbelow⟩ := h
  rw [Path.place, ← foldl_splitTrailing, hsteps, List.foldl_append, next_of_walk hwalk]
  exact next_of_below hidle hup hbelow

theorem Named.ne_nil (h : tree.Named path names) : names ≠ [] := by
  obtain ⟨-, -, -, -, -, hbelow⟩ := h
  obtain ⟨before, -, rfl⟩ := below_eq_ok hbelow
  simp

theorem lookup_replaced (entries : List (List String × Entry)) (names other : List String) (entry : Entry) :
    (entries.map fun old => if old.1 == names then (names, entry) else old).lookup other =
      if other = names then (entries.lookup names).map fun _ => entry else entries.lookup other := by
  induction entries with
  | nil => split <;> rfl
  | cons old entries ih =>
      obtain ⟨key, old⟩ := old
      rw [List.map_cons, List.lookup_cons, ih, List.lookup_cons, List.lookup_cons]
      by_cases hkey : key = names
      · rw [if_pos (by simpa using hkey), hkey, beq_self_eq_true]
        by_cases hother : other = names
        · simp [hother]
        · simp [hother, beq_eq_false_iff_ne.mpr hother]
      · rw [if_neg (by simpa using hkey)]
        by_cases hother : other = names
        · simp [hother, beq_eq_false_iff_ne.mpr (Ne.symm hkey)]
        · simp [hother]

theorem entry?_put (hnames : names ≠ []) (entry : Entry) (place : Place) :
    entry? (tree.put names entry) place = if place = .inside names then some entry else tree.entry? place := by
  obtain ⟨name, rest, rfl⟩ := List.exists_cons_of_ne_nil hnames
  cases hold : tree.entry? (.inside (name :: rest)) with
  | none => exact entry?_put_of_free hold entry place
  | some old =>
      have hlookup : tree.entries.lookup (name :: rest) = some old := hold
      have hany : tree.entries.any (·.1 == name :: rest) = true := by
        rw [List.any_eq_true]
        refine Decidable.byContradiction fun hnone => ?_
        have hfree : tree.entries.lookup (name :: rest) = none := by
          rw [List.lookup_eq_none_iff]
          intro old hmem
          have hne : name :: rest ≠ old.1 := fun heq => hnone ⟨old, hmem, beq_iff_eq.mpr heq.symm⟩
          exact bne_iff_ne.mpr hne
        cases hlookup.symm.trans hfree
      rw [put, if_pos hany]
      match place with
      | .outside => rfl
      | .inside [] => rfl
      | .inside (first :: others) =>
          change (tree.entries.map _).lookup (first :: others) = _
          rw [lookup_replaced, hlookup]
          by_cases hsame : first :: others = name :: rest
          · rw [if_pos hsame, if_pos (congrArg Place.inside hsame)]
            rfl
          · rw [if_neg hsame, if_neg (fun heq => hsame (Place.inside.inj heq))]
            rfl

/-- Directories stay when something is put where there is none. -/
theorem entry?_put_of_directory (hnames : names ≠ []) (hfree : tree.entry? (.inside names) ≠ some .directory)
    (entry : Entry) (hplace : tree.entry? place = some .directory) :
    entry? (tree.put names entry) place = some .directory := by
  rw [entry?_put hnames, if_neg]
  · exact hplace
  · rintro rfl
    exact hfree hplace

/-! ### What is kept -/

/-- Between two trees no directory is lost, and where a path leads there is the same file or none. -/
structure Retains (tree tree' : FileTree) (path : Path) : Prop where
  directory : ∀ place, tree.entry? place = some .directory → tree'.entry? place = some .directory
  file : ∀ text executable, tree'.entry? path.place = some (.file text executable) ↔
    tree.entry? path.place = some (.file text executable)

/-- The text of the file in the place of a path, whether the path leads there or not. -/
def textAt? (tree : FileTree) (path : Path) : Option String :=
  match tree.entry? path.place with
  | some (.file text _) => some text
  | _ => none

theorem textAt?_eq_some : tree.textAt? path = some text ↔
    ∃ executable, tree.entry? path.place = some (.file text executable) := by
  unfold textAt?
  split
  · rename_i found executable hentry
    rw [hentry]
    constructor
    · rintro ⟨⟩
      exact ⟨executable, rfl⟩
    · rintro ⟨_, ⟨⟩⟩
      rfl
  · rename_i hnone
    constructor
    · intro h
      cases h
    · rintro ⟨executable, hentry⟩
      exact (hnone _ _ hentry).elim

theorem read_eq_ok : tree.read path = .ok text ↔ tree.find path = .ok path.place ∧ tree.textAt? path = some text := by
  constructor
  · intro h
    obtain ⟨place, hfind, h⟩ := bind_eq_ok.mp h
    obtain ⟨-, -, rfl⟩ := find_eq_ok hfind
    refine ⟨hfind, ?_⟩
    split at h
    · rename_i executable hentry
      cases h
      exact textAt?_eq_some.mpr ⟨_, hentry⟩
    · cases h
    · cases h
  · rintro ⟨hfind, htext⟩
    obtain ⟨executable, hentry⟩ := textAt?_eq_some.mp htext
    refine bind_eq_ok.mpr ⟨_, hfind, ?_⟩
    rw [hentry]

theorem step_of_directories
    (hkept : ∀ place, tree.entry? place = some .directory → tree'.entry? place = some .directory)
    (hstep : tree.step place name = .ok place') (hend : tree'.entry? place' ≠ none) :
    tree'.step place name = .ok place' := by
  obtain ⟨hdirectory, ⟨hidle, rfl⟩ | ⟨hidle, hup, rfl⟩ | ⟨hidle, hup, names, hbelow, rfl, -⟩⟩ := step_eq_ok hstep
  · rw [step, hkept _ hdirectory, if_neg (not_not_intro rfl), if_pos hidle]
  · rw [step, hkept _ hdirectory, if_neg (not_not_intro rfl), if_neg (by simp [hidle]), if_pos hup]
  · rw [step_of_below (hkept _ hdirectory) hidle hup hbelow]
    cases hentry : tree'.entry? (.inside names) with
    | none => exact (hend hentry).elim
    | some entry => rfl

/-- A walk goes on as before as long as there are the directories on its way, and something at its
end. -/
theorem walk_of_directories
    (hkept : ∀ place, tree.entry? place = some .directory → tree'.entry? place = some .directory)
    {steps : List String} (hwalk : steps.foldlM tree.step place = .ok place') (hend : tree'.entry? place' ≠ none) :
    steps.foldlM tree'.step place = .ok place' := by
  induction steps generalizing place with
  | nil => exact hwalk
  | cons name steps ih =>
      obtain ⟨between, hstep, hwalk⟩ := bind_eq_ok.mp hwalk
      refine bind_eq_ok.mpr ⟨between, step_of_directories hkept hstep ?_, ih hwalk⟩
      cases steps with
      | nil =>
          cases hwalk
          exact hend
      | cons name steps =>
          obtain ⟨after, hnext, -⟩ := bind_eq_ok.mp hwalk
          rw [hkept _ (step_eq_ok hnext).1]
          exact Option.some_ne_none _

namespace Retains

theorem refl (tree : FileTree) (path : Path) : tree.Retains tree path := ⟨fun _ h => h, fun _ _ => Iff.rfl⟩

theorem trans (h : tree.Retains tree' path) (h' : tree'.Retains tree'' path) : tree.Retains tree'' path where
  directory place hplace := h'.directory place (h.directory place hplace)
  file text executable := (h'.file text executable).trans (h.file text executable)

theorem textAt?_eq (h : tree.Retains tree' path) : tree'.textAt? path = tree.textAt? path := by
  ext text
  rw [textAt?_eq_some, textAt?_eq_some]
  exact exists_congr fun executable => h.file text executable

/-- What could be read is still read. -/
theorem read (h : tree.Retains tree' path) (hread : tree.read path = .ok text) : tree'.read path = .ok text := by
  obtain ⟨hfind, htext⟩ := read_eq_ok.mp hread
  obtain ⟨hcheck, hwalk, -⟩ := find_eq_ok hfind
  rw [← h.textAt?_eq] at htext
  refine read_eq_ok.mpr ⟨bind_eq_ok.mpr ⟨_, hcheck, walk_of_directories h.directory hwalk ?_⟩, htext⟩
  obtain ⟨executable, hentry⟩ := textAt?_eq_some.mp htext
  rw [hentry]
  exact Option.some_ne_none _

theorem of_put (hnames : names ≠ []) (hfree : tree.entry? (.inside names) ≠ some .directory) (entry : Entry)
    (hplace : path.place ≠ .inside names) : tree.Retains (tree.put names entry) path where
  directory _ := entry?_put_of_directory hnames hfree entry
  file text executable := by rw [entry?_put hnames, if_neg hplace]

theorem makeDirectory (h : tree.makeDirectory other = .ok tree') : tree.Retains tree' path where
  directory place hdirectory := by
    obtain ⟨names, hfree, rfl⟩ := makeDirectory_eq_ok h
    rw [entry?_put_of_free hfree]
    split
    · rfl
    · exact hdirectory
  file := SameFiles.makeDirectory h path.place

theorem makeDirectories (tree : FileTree) (other path : Path) : tree.Retains (tree.makeDirectories other).1 path :=
  makeDirectoriesUpTo_induction (p := fun tree tree' => tree.Retains tree' path) (fun tree => refl tree path) trans
    makeDirectory _ tree other

theorem remove (hother : other.place ≠ path.place) (h : tree.remove other = .ok tree') : tree.Retains tree' path where
  directory place hdirectory := by
    obtain ⟨-, -, -, names, text, executable, -, -, -, -, hfile, rfl⟩ := remove_eq_ok h
    rw [entry?_erase_of_ne]
    · exact hdirectory
    · rintro rfl
      cases hfile.symm.trans hdirectory
  file text executable := by
    obtain ⟨-, names, hfind, hothers⟩ := not_sameFiles_of_remove h
    rw [hothers]
    rw [(find_eq_ok hfind).2.2]
    exact Ne.symm hother

end Retains

/-- What is written is put in the place of the path, where there was a file or nothing. -/
structure Written (tree : FileTree) (path : Path) (text : String) (tree' : FileTree) : Prop where
  put : ∃ names executable, names ≠ [] ∧ path.place = .inside names ∧
    tree.entry? (.inside names) ≠ some .directory ∧ tree' = tree.put names (.file text executable)
  find : tree'.find path = .ok path.place

/-- Names in a directory stay there when something is put in their place. -/
theorem Named.put (h : tree.Named path names) (hfree : tree.entry? (.inside names) ≠ some .directory) (entry : Entry) :
    Named (tree.put names entry) path names := by
  have hnames := h.ne_nil
  obtain @⟨steps, name, place, hsteps, hwalk, hidle, hup, hdirectory, hbelow⟩ := h
  have hkept : ∀ place, tree.entry? place = some .directory → entry? (tree.put names entry) place = some .directory :=
    fun _ => entry?_put_of_directory hnames hfree entry
  refine .intro hsteps (walk_of_directories hkept hwalk ?_) hidle hup (hkept place hdirectory) hbelow
  rw [hkept place hdirectory]
  exact Option.some_ne_none _

/-- They lead to what is there, and slashes at the end of the path ask for a directory. -/
theorem Named.find (h : tree.Named path names) (hcheck : path.check = .ok ())
    (hentry : tree.entry? (.inside names) ≠ none)
    (hends : tree.entry? (.inside names) = some .directory ∨ (splitTrailing path).2 = false) :
    tree.find path = .ok (.inside names) := by
  obtain @⟨steps, name, place, hsteps, hwalk, hidle, hup, hdirectory, hbelow⟩ := h
  obtain ⟨slashes, hsplit, hslashes⟩ := splitTrailing_append path
  have hstep : tree.step place name = .ok (.inside names) := by
    rw [step_of_below hdirectory hidle hup hbelow]
    split
    · rfl
    · contradiction
  have hrest : slashes.foldlM tree.step (.inside names) = .ok (.inside names) := by
    rcases hends with hdirectory | hends
    · clear hsplit
      induction slashes with
      | nil => rfl
      | cons slash slashes ih =>
          obtain ⟨rfl, hothers⟩ := List.forall_mem_cons.mp hslashes
          refine bind_eq_ok.mpr ⟨.inside names, ?_, ih hothers⟩
          unfold step
          rw [hdirectory]
          rfl
    · rw [splitTrailing_of_eq_false hends, List.self_eq_append_right] at hsplit
      rw [hsplit]
      rfl
  refine bind_eq_ok.mpr ⟨(), hcheck, ?_⟩
  rw [hsplit, hsteps, List.foldlM_append, List.foldlM_append]
  exact bind_eq_ok.mpr ⟨_, bind_eq_ok.mpr ⟨place, hwalk, bind_eq_ok.mpr ⟨_, hstep, rfl⟩⟩, hrest⟩

theorem Named.written (h : tree.Named path names) (hcheck : path.check = .ok ())
    (htrailing : (splitTrailing path).2 = false) (hfree : tree.entry? (.inside names) ≠ some .directory)
    (text : String) (executable : Bool) : tree.Written path text (tree.put names (.file text executable)) where
  put := ⟨names, executable, h.ne_nil, h.place_eq, hfree, rfl⟩
  find := by
    rw [h.place_eq]
    refine (h.put hfree _).find hcheck ?_ (.inr htrailing)
    rw [entry?_put h.ne_nil, if_pos rfl]
    exact Option.some_ne_none _

/-- A step that is idle or leads up leads to a directory. -/
theorem entry?_walked (hwalk : tree.Leads place) (hname : Path.isIdle name = true ∨ name = "..")
    (hstep : tree.step place name = .ok place') : tree.entry? place' = some .directory := by
  obtain ⟨hplace, ⟨-, rfl⟩ | ⟨-, -, rfl⟩ | ⟨hidle, hup, -⟩⟩ := step_eq_ok hstep
  · exact hplace
  · exact hwalk.above.1
  · rcases hname with hname | hname
    · cases hname.symm.trans hidle
    · exact (hup hname).elim

theorem entry?_startOf (path : Path) : tree.entry? (startOf path) = some .directory := by
  unfold startOf
  split <;> rfl

/-- What has been written was put where the path names a file or something new. -/
theorem write_eq_ok (h : tree.write path text = .ok tree') :
    path.check = .ok () ∧ (splitTrailing path).2 = false ∧ ∃ names executable, tree.Named path names ∧
      tree.entry? (.inside names) ≠ some .directory ∧ tree' = tree.put names (.file text executable) := by
  unfold write at h
  obtain ⟨⟨target, trailing⟩, htarget, h⟩ := bind_eq_ok.mp h
  obtain ⟨hcheck, -, haims⟩ := target_eq_ok htarget
  have hdirectory : ∀ {place : Place}, target = .taken place → tree.entry? place ≠ some .directory := by
    rintro place rfl hplace
    dsimp only at h
    rw [hplace] at h
    split at h
    · rename_i hfile
      cases hfile
    · cases h
  refine ⟨hcheck, ?_⟩
  cases haims with
  | start => exact (hdirectory rfl (entry?_startOf path)).elim
  | walked hsteps hwalk hname hstep =>
      exact (hdirectory rfl (entry?_walked ((leads_startOf path).walk hwalk) hname hstep)).elim
  | old hnamed htrailing hentry =>
      have hfree := hdirectory rfl
      dsimp only at h
      split at h
      · rename_i names' entry' names executable' executable heq hfile
        cases heq
        cases h
        exact ⟨htrailing rfl, _, executable, hnamed, hfree, rfl⟩
      · cases h
  | new hnamed htrailing hentry =>
      cases h
      exact ⟨htrailing rfl, _, false, hnamed, by rw [hentry]; exact nofun, rfl⟩

theorem written_of_write (h : tree.write path text = .ok tree') : tree.Written path text tree' := by
  obtain ⟨hcheck, htrailing, names, executable, hnamed, hfree, rfl⟩ := write_eq_ok h
  exact hnamed.written hcheck htrailing hfree text executable

theorem Retains.write (hother : other.place ≠ path.place) (h : tree.write other text = .ok tree') :
    tree.Retains tree' path := by
  obtain ⟨names, executable, hnames, hplace, hfree, rfl⟩ := (written_of_write h).put
  rw [hplace] at hother
  exact .of_put hnames hfree _ (Ne.symm hother)

/-- Writing makes no directory, and no file but in the place that is written to. -/
theorem Retains.unwrite (hother : other.place ≠ path.place) (h : tree.write other text = .ok tree') :
    tree'.Retains tree path := by
  obtain ⟨names, executable, hnames, hplace, -, rfl⟩ := (written_of_write h).put
  rw [hplace] at hother
  refine ⟨fun place hdirectory => ?_, fun text executable => ?_⟩
  · rw [entry?_put hnames] at hdirectory
    split at hdirectory
    · cases hdirectory
    · exact hdirectory
  · rw [entry?_put hnames, if_neg (Ne.symm hother)]

/-- What is written in another place leaves what is read as it was. -/
theorem read_of_writeElsewhere (hother : other.place ≠ path.place) (h : tree.write other text = .ok tree') :
    (tree'.read path).toOption = (tree.read path).toOption := by
  ext found
  rw [toOption_eq_some, toOption_eq_some]
  exact ⟨(Retains.unwrite hother h).read, (Retains.write hother h).read⟩

/-- **What has been written** is read back. -/
theorem read_of_write (h : tree.write path text = .ok tree') : tree'.read path = .ok text := by
  obtain ⟨⟨names, executable, hnames, hplace, -, rfl⟩, hfind⟩ := written_of_write h
  refine read_eq_ok.mpr ⟨hfind, textAt?_eq_some.mpr ⟨executable, ?_⟩⟩
  rw [hplace, entry?_put hnames, if_pos rfl]

end FileTree

end Segue
