import Mathlib.Data.List.TakeWhile
import Segue.Proofs.Files.Writing

/-!
The names that paths end in, and their extensions. Main statements: a path with another extension
has another last name behind the same steps, and what is written to it leaves the file of the path
as it is, unless the two are the same path.
-/

namespace Segue

namespace Path

variable {path : Path} {directory idle steps : List String} {name extension : String} {endsPath : Bool}

theorem notMem_of_mem_splitOn {separator : Char} {text part : List Char} (h : part ∈ text.splitOn separator) :
    separator ∉ part := by
  induction text generalizing part with
  | nil =>
      rw [List.splitOn_nil, List.mem_singleton] at h
      rw [h]
      exact List.not_mem_nil
  | cons char text ih =>
      rw [List.splitOn_cons_eq_if_modifyHead] at h
      split at h
      · rcases List.mem_cons.mp h with rfl | h
        · exact List.not_mem_nil
        · exact ih h
      · rename_i hchar
        obtain ⟨first, rest, hsplit⟩ := List.exists_cons_of_ne_nil (List.splitOn_ne_nil separator text)
        rw [hsplit] at h ih
        rcases List.mem_cons.mp h with rfl | h
        · rw [List.mem_cons, not_or]
          exact ⟨fun heq => hchar (beq_iff_eq.mpr heq.symm), ih List.mem_cons_self⟩
        · exact ih (List.mem_cons_of_mem _ h)

theorem slash_notMem (h : name ∈ path.steps) : '/' ∉ name.toList := by
  obtain ⟨part, hpart, rfl⟩ := List.mem_map.mp h
  rw [String.toList_ofList]
  exact notMem_of_mem_splitOn hpart

theorem steps_ne_nil (path : Path) : path.steps ≠ [] := mt List.map_eq_nil_iff.mp (List.splitOn_ne_nil _ _)

theorem toList_ofSteps (steps : List String) :
    (ofSteps steps).text.toList = ['/'].intercalate (steps.map String.toList) :=
  String.toList_intercalate

theorem ofSteps_steps (path : Path) : ofSteps path.steps = path := by
  have htext : (ofSteps path.steps).text = path.text := by
    apply String.ext
    rw [toList_ofSteps, steps, List.map_map]
    have hsame : String.toList ∘ String.ofList = id := funext fun part => String.toList_ofList
    rw [hsame, List.map_id, List.intercalate_splitOn]
  cases path
  exact congrArg Path.mk htext

theorem steps_ofSteps (hne : steps ≠ []) (hslash : ∀ step ∈ steps, '/' ∉ step.toList) :
    (ofSteps steps).steps = steps := by
  rw [Path.steps, toList_ofSteps, List.splitOn_intercalate, List.map_map]
  · have hsame : String.ofList ∘ String.toList = id := funext fun step => String.ofList_toList
    rw [hsame, List.map_id]
  · intro part hpart
    obtain ⟨step, hstep, rfl⟩ := List.mem_map.mp hpart
    exact hslash step hstep
  · exact mt List.map_eq_nil_iff.mp hne

theorem isAbsolute_of_steps (hsteps : path.steps = directory ++ name :: idle) (hname : isIdle name = false) :
    path.isAbsolute = (directory.head? == some "") := by
  have hslash : ∀ step ∈ path.steps, '/' ∉ step.toList := fun step hstep => slash_notMem hstep
  rw [isAbsolute, ← ofSteps_steps path, toList_ofSteps]
  rw [hsteps] at hslash ⊢
  cases directory with
  | nil =>
      have hnot := hslash name (by simp)
      have hne : name.toList ≠ [] := by
        rintro hnil
        rw [String.toList_eq_nil_iff.mp hnil] at hname
        cases hname
      obtain ⟨char, rest, htext⟩ := List.exists_cons_of_ne_nil hne
      rw [htext, List.mem_cons, not_or] at hnot
      have hhead : (['/'].intercalate (([] ++ name :: idle).map String.toList)).head? = some char := by
        rw [List.nil_append, List.map_cons, htext]
        cases idle <;> rfl
      rw [hhead]
      simpa using Ne.symm hnot.1
  | cons first directory =>
      have hnot := hslash first (by simp)
      have hhead : ['/'].intercalate ((first :: directory ++ name :: idle).map String.toList) =
          first.toList ++ '/' :: ['/'].intercalate ((directory ++ name :: idle).map String.toList) := by
        cases directory <;> simp [List.intercalate]
      rw [hhead, List.head?_cons]
      cases htext : first.toList with
      | nil =>
          rw [String.toList_eq_nil_iff.mp htext]
          rfl
      | cons char rest =>
          rw [htext, List.mem_cons, not_or] at hnot
          have hfirst : first ≠ "" := by
            rintro rfl
            cases htext
          simpa [hfirst, eq_comm] using hnot.1

/-- A path ends in a name, with the steps before it and the idle ones behind it. -/
structure Ends (path : Path) (directory : List String) (name : String) (idle : List String) : Prop where
  steps : path.steps = directory ++ name :: idle
  idle : ∀ step ∈ idle, isIdle step = true
  plain : isIdle name = false
  up : name ≠ ".."

theorem dropIdle_append (steps : List String) :
    ∃ idle, steps = dropIdle steps ++ idle ∧ ∀ step ∈ idle, isIdle step = true := by
  refine ⟨(steps.reverse.takeWhile isIdle).reverse, ?_, fun step hstep => ?_⟩
  · have hreverse := congrArg List.reverse (List.takeWhile_append_dropWhile (p := isIdle) (l := steps.reverse))
    rw [List.reverse_append, List.reverse_reverse] at hreverse
    exact hreverse.symm
  · exact List.all_eq_true.mp (List.all_takeWhile (p := isIdle) (l := steps.reverse)) step (List.mem_reverse.mp hstep)

theorem not_isIdle_of_getLast? (h : (dropIdle steps).getLast? = some name) : isIdle name = false := by
  rw [dropIdle, List.getLast?_reverse] at h
  have hnot := List.head?_dropWhile_not isIdle steps.reverse
  rw [h] at hnot
  simpa using hnot

theorem dropIdle_of_idle (hidle : ∀ step ∈ idle, isIdle step = true) : dropIdle idle = [] := by
  rw [dropIdle, List.reverse_eq_nil_iff, List.dropWhile_eq_nil_iff]
  exact fun step hstep => hidle step (List.mem_reverse.mp hstep)

theorem dropIdle_of_plain (hname : isIdle name = false) (hidle : ∀ step ∈ idle, isIdle step = true) :
    dropIdle (directory ++ name :: idle) = directory ++ [name] := by
  have hreverse : (directory ++ name :: idle).reverse = idle.reverse ++ (name :: directory.reverse) := by simp
  rw [dropIdle, hreverse, List.dropWhile_append_of_pos fun step hstep => hidle step (List.mem_reverse.mp hstep),
    List.dropWhile_cons_of_neg (by simp [hname])]
  simp

/-- The route of a path that ends in a name. -/
theorem Ends.route (h : path.Ends directory name idle) :
    directory = [] ∧ path.route = { first := name, middle := [], last := none } ∨
      ∃ first middle, directory = first :: middle ∧ path.route = { first, middle, last := some name } := by
  unfold Path.route
  rw [h.steps]
  cases directory with
  | nil =>
      refine .inl ⟨rfl, ?_⟩
      simp only [List.nil_append, dropIdle_of_idle h.idle]
      rfl
  | cons first middle =>
      refine .inr ⟨first, middle, rfl, ?_⟩
      simp only [List.cons_append, dropIdle_of_plain h.plain h.idle, List.dropLast_concat, List.getLast?_concat]

/-- The name of a path is what it ends in. -/
theorem fileName?_eq_some : path.fileName? = some name ↔ ∃ directory idle, path.Ends directory name idle := by
  constructor
  · intro h
    obtain ⟨first, rest, hsteps⟩ := List.exists_cons_of_ne_nil (steps_ne_nil path)
    obtain ⟨idle, hrest, hidle⟩ := dropIdle_append rest
    rw [fileName?, Path.route, hsteps] at h
    dsimp only at h
    split at h
    · rename_i last hlast
      split at h
      · cases h
      · rename_i hup
        cases h
        obtain ⟨middle, hmiddle⟩ := List.getLast?_eq_some_iff.mp hlast
        refine ⟨first :: middle, idle, ?_, hidle, not_isIdle_of_getLast? hlast, by simpa using hup⟩
        rw [hsteps, hrest, hmiddle, List.append_assoc]
        rfl
    · rename_i hlast
      split at h
      · cases h
      · rename_i hplain
        cases h
        rw [Bool.or_eq_true, not_or, Bool.not_eq_true] at hplain
        rw [List.getLast?_eq_none_iff.mp hlast, List.nil_append] at hrest
        exact ⟨[], idle, by rw [hsteps, hrest, List.nil_append], hidle, hplain.1, by simpa using hplain.2⟩
  · rintro ⟨directory, idle, h⟩
    unfold fileName?
    rcases h.route with ⟨-, hroute⟩ | ⟨first, middle, -, hroute⟩
    · rw [hroute]
      simp [h.plain, h.up]
    · rw [hroute]
      simp [h.up]

/-! ### Another extension -/

/-- A path with another extension has another last name, and nothing behind it. -/
theorem Ends.withExtension_eq (h : path.Ends directory name idle) (extension : String) :
    path.withExtension extension = ofSteps (directory ++ [extendName idle.isEmpty name extension]) := by
  have hends : (path.steps.getLast? == some name) = idle.isEmpty := by
    rw [h.steps]
    rcases List.eq_nil_or_concat idle with rfl | ⟨before, last, rfl⟩
    · simp
    · have hlast : isIdle last = true := h.idle last (by simp)
      have hne : last ≠ name := by
        rintro rfl
        cases hlast.symm.trans h.plain
      rw [List.concat_eq_append, ← List.cons_append, ← List.append_assoc, List.getLast?_concat,
        beq_eq_false_iff_ne.mpr (Option.some.inj.mt hne)]
      exact (List.isEmpty_eq_false_iff.mpr (by simp)).symm
  rw [withExtension, fileName?_eq_some.mpr ⟨directory, idle, h⟩]
  dsimp only
  rw [hends]
  rcases h.route with ⟨rfl, hroute⟩ | ⟨first, middle, rfl, hroute⟩ <;> rw [hroute]
  · exact congrArg Path.mk (String.intercalate_singleton).symm

theorem mem_of_mem_stem {char : Char} (h : char ∈ (stem name).toList) : char ∈ name.toList := by
  have hsuffix : name.toList.reverse.dropWhile (· != '.') <:+ name.toList.reverse := List.dropWhile_suffix _
  unfold stem at h
  split at h
  · exact h
  · exact h
  · rename_i dot before hbefore
    rw [hbefore] at hsuffix
    rw [String.toList_ofList, List.mem_reverse] at h
    exact List.mem_reverse.mp (hsuffix.mem (List.mem_cons_of_mem _ h))

theorem slash_notMem_extendName (hname : '/' ∉ name.toList) (hextension : '/' ∉ extension.toList) :
    '/' ∉ (extendName endsPath name extension).toList := by
  unfold extendName
  split
  · decide
  · rw [String.toList_append, String.toList_append, List.mem_append, List.mem_append, not_or, not_or]
    exact ⟨⟨fun h => hname (mem_of_mem_stem h), by decide⟩, hextension⟩

theorem Ends.steps_withExtension (h : path.Ends directory name idle) (hextension : '/' ∉ extension.toList) :
    (path.withExtension extension).steps = directory ++ [extendName idle.isEmpty name extension] := by
  have hslash : ∀ step ∈ directory ++ [name], '/' ∉ step.toList := by
    intro step hstep
    have hmem : step ∈ path.steps := by
      rw [h.steps]
      simp only [List.mem_append, List.mem_cons, List.not_mem_nil, or_false] at hstep ⊢
      exact hstep.imp_right .inl
    exact slash_notMem hmem
  rw [h.withExtension_eq, steps_ofSteps (by simp)]
  rw [List.forall_mem_append, List.forall_mem_singleton] at hslash ⊢
  exact ⟨hslash.1, slash_notMem_extendName hslash.2 hextension⟩

theorem stem_extended (hstem : name ≠ "") (hdot : '.' ∉ extension.toList) :
    stem (name ++ "." ++ extension) = name := by
  have hreverse : (name ++ "." ++ extension).toList.reverse =
      extension.toList.reverse ++ '.' :: name.toList.reverse := by
    simp
  have hkept : ∀ char ∈ extension.toList.reverse, (char != '.') = true := by
    intro char hchar
    refine bne_iff_ne.mpr ?_
    rintro rfl
    exact hdot (List.mem_reverse.mp hchar)
  have hdrop : (extension.toList.reverse ++ '.' :: name.toList.reverse).dropWhile (· != '.') =
      '.' :: name.toList.reverse := by
    rw [List.dropWhile_append_of_pos hkept]
    rfl
  unfold stem
  rw [hreverse, hdrop]
  have hne : name.toList.reverse ≠ [] := by
    rw [Ne, List.reverse_eq_nil_iff, String.toList_eq_nil_iff]
    exact hstem
  obtain ⟨char, rest, hrest⟩ := List.exists_cons_of_ne_nil hne
  rw [hrest]
  dsimp only
  rw [← hrest, List.reverse_reverse, String.ofList_toList]

/-- A name with an extension is neither idle nor a step up. -/
theorem plain_extended (hne : extension ≠ "") (hdot : '.' ∉ extension.toList) (stem : String) :
    isIdle (stem ++ "." ++ extension) = false ∧ stem ++ "." ++ extension ≠ ".." := by
  obtain ⟨char, rest, htext⟩ := List.exists_cons_of_ne_nil (mt String.toList_eq_nil_iff.mp hne)
  have hchar : char ≠ '.' := by
    rintro rfl
    exact hdot (htext ▸ List.mem_cons_self)
  have hmem : char ∈ (stem ++ "." ++ extension).toList := by
    rw [String.toList_append, htext]
    exact List.mem_append_right _ List.mem_cons_self
  refine ⟨Bool.eq_false_iff.mpr fun hidle => ?_, fun hup => ?_⟩
  · rw [isIdle, Bool.or_eq_true, beq_iff_eq, beq_iff_eq] at hidle
    rcases hidle with hidle | hidle <;> rw [hidle] at hmem
    · cases hmem
    · exact hchar (by simpa using hmem)
  · rw [hup] at hmem
    exact hchar (by simpa using hmem)

/-- The steps before a name that is joined to a path. -/
def stepsTo (root : Path) : List String :=
  if root.text = "" then [] else if root.text.toList.getLast? = some '/' then root.steps.dropLast else root.steps

theorem text_ofSteps_concat (directory : List String) (name : String) :
    (ofSteps (directory ++ [name])).text =
      (if directory = [] then "" else "/".intercalate directory ++ "/") ++ name := by
  unfold ofSteps
  split
  · rename_i hnil
    rw [hnil, List.nil_append, String.intercalate_singleton, String.empty_append]
  · rename_i hne
    rw [String.intercalate_append_of_ne_nil hne (List.cons_ne_nil _ _), String.intercalate_singleton]

/-- The last step of a path that a slash ends is empty. -/
theorem steps_eq_of_slash (h : path.text.toList.getLast? = some '/') : path.steps = path.steps.dropLast ++ [""] := by
  have hsplit := List.dropLast_concat_getLast (steps_ne_nil path)
  have hlast : path.steps.getLast (steps_ne_nil path) = "" := by
    have hslash := slash_notMem (List.getLast_mem (steps_ne_nil path))
    rw [← ofSteps_steps path, ← hsplit, text_ofSteps_concat, String.toList_append, List.getLast?_append] at h
    rw [← String.toList_eq_nil_iff]
    cases htext : (path.steps.getLast (steps_ne_nil path)).toList.getLast? with
    | none => exact List.getLast?_eq_none_iff.mp htext
    | some char =>
        rw [htext, Option.some_or] at h
        cases h
        exact (hslash (List.mem_of_getLast? htext)).elim
  rw [hlast] at hsplit
  exact hsplit.symm

theorem join_eq_ofSteps (root : Path) (hname : '/' ∉ name.toList) :
    root.join ⟨name⟩ = ofSteps (root.stepsTo ++ [name]) := by
  have hrelative : (⟨name⟩ : Path).isAbsolute = false := by
    refine beq_eq_false_iff_ne.mpr fun hhead => hname ?_
    exact List.mem_of_head? hhead
  have htext : (root.join ⟨name⟩).text = (ofSteps (root.stepsTo ++ [name])).text := by
    rw [text_ofSteps_concat, join, hrelative, Bool.false_or, stepsTo]
    by_cases hempty : root.text = ""
    · simp [hempty]
    · rw [if_neg (by simpa using hempty), if_neg hempty]
      by_cases hslash : root.text.toList.getLast? = some '/'
      · have hroot := congrArg Path.text (ofSteps_steps root)
        rw [steps_eq_of_slash hslash, text_ofSteps_concat, String.append_empty] at hroot
        rw [if_pos (by simpa using hslash), if_pos hslash, hroot]
      · have hroot := congrArg Path.text (ofSteps_steps root)
        rw [if_neg (by simpa using hslash), if_neg hslash, if_neg (steps_ne_nil root)]
        change "/".intercalate root.steps = root.text at hroot
        rw [hroot]
  exact congrArg Path.mk htext

theorem slash_notMem_stepsTo {root : Path} {step : String} (h : step ∈ root.stepsTo) : '/' ∉ step.toList := by
  unfold stepsTo at h
  split at h
  · cases h
  · split at h
    · exact slash_notMem (List.dropLast_subset _ h)
    · exact slash_notMem h

theorem steps_join (root : Path) (hname : '/' ∉ name.toList) :
    (root.join ⟨name⟩).steps = root.stepsTo ++ [name] := by
  rw [join_eq_ofSteps root hname, steps_ofSteps (by simp)]
  rw [List.forall_mem_append, List.forall_mem_singleton]
  exact ⟨fun step => slash_notMem_stepsTo, hname⟩

/-- A path leads to a name of a directory, and neither back to it nor out of it. -/
def IsChild (root path : Path) : Prop :=
  ∃ name, '/' ∉ name.toList ∧ isIdle name = false ∧ name ≠ ".." ∧ path = root.join ⟨name⟩

theorem ends_join (root : Path) (hslash : '/' ∉ name.toList) (hplain : isIdle name = false) (hup : name ≠ "..") :
    (root.join ⟨name⟩).Ends root.stepsTo name [] :=
  ⟨steps_join root hslash, List.forall_mem_nil _, hplain, hup⟩

theorem join_inj {root : Path} {other : String} (hname : '/' ∉ name.toList) (hother : '/' ∉ other.toList)
    (h : root.join ⟨name⟩ = root.join ⟨other⟩) : name = other := by
  have hsteps := congrArg Path.steps h
  rw [steps_join root hname, steps_join root hother] at hsteps
  simpa using List.append_cancel_left hsteps

/-- The place that the steps before a name lead to. -/
def placeOf (directory : List String) : Place :=
  directory.foldl Place.next (if directory.head? == some "" then .outside else .inside [])

theorem foldl_next_of_idle (hidle : ∀ step ∈ idle, isIdle step = true) (place : Place) :
    idle.foldl Place.next place = place := by
  induction idle with
  | nil => rfl
  | cons step idle ih =>
      obtain ⟨hstep, hidle⟩ := List.forall_mem_cons.mp hidle
      have hstays : place.next step = place := if_pos hstep
      rw [List.foldl_cons, hstays, ih hidle]

theorem Ends.place_eq (h : path.Ends directory name idle) : path.place = (placeOf directory).next name := by
  rw [place, h.steps, List.foldl_append, List.foldl_cons, foldl_next_of_idle h.idle, FileTree.startOf,
    isAbsolute_of_steps h.steps h.plain]
  rfl

end Path

/-- A name is the last one of the place that it leads to. -/
theorem Place.next_inj {place : Place} {name other : String} {names : List String} (hname : Path.isIdle name = false)
    (hup : name ≠ "..") (hother : Path.isIdle other = false) (hup' : other ≠ "..")
    (hinside : place.next other = .inside names) (h : place.next name = place.next other) : name = other := by
  rw [hinside] at h
  unfold Place.next at h hinside
  rw [if_neg (by simp [hname]), if_neg hup] at h
  rw [if_neg (by simp [hother]), if_neg hup'] at hinside
  cases place with
  | outside => cases h
  | inside before =>
      cases hinside
      simpa using h

namespace FileTree

variable {tree tree' : FileTree} {path : Path} {extension text : String}

/-- A path with an idle step at its end leads to no file. -/
theorem read_of_idle {steps : List String} {last : String} (hsteps : path.steps = steps ++ [last])
    (hlast : Path.isIdle last = true) : (tree.read path).toOption = none := by
  refine Option.eq_none_iff_forall_not_mem.mpr fun text htext => ?_
  obtain ⟨hfind, hfile⟩ := read_eq_ok.mp (toOption_eq_some.mp htext)
  obtain ⟨executable, hentry⟩ := textAt?_eq_some.mp hfile
  obtain ⟨-, hwalk, -⟩ := find_eq_ok hfind
  rw [hsteps, List.foldlM_append] at hwalk
  obtain ⟨place, -, hstep⟩ := bind_eq_ok.mp hwalk
  obtain ⟨place', hstep, hend⟩ := bind_eq_ok.mp hstep
  cases hend
  have hstays : place.next last = place := if_pos hlast
  rw [← next_of_step hstep, hstays, (step_eq_ok hstep).1] at hentry
  cases hentry

/-- What is written ends in a name. -/
theorem ends_of_write {directory : List String} {name : String} (hsteps : path.steps = directory ++ [name])
    (h : tree.write path text = .ok tree') : path.Ends directory name [] ∧ ∃ names, path.place = .inside names := by
  obtain ⟨-, htrailing, names, -, hnamed, -, -⟩ := write_eq_ok h
  refine ⟨?_, names, hnamed.place_eq⟩
  obtain ⟨hlast, -, hidle, hup, -, -⟩ := hnamed
  rw [splitTrailing_of_eq_false htrailing, hsteps] at hlast
  obtain ⟨-, hname⟩ := List.append_inj' hlast rfl
  cases hname
  exact ⟨hsteps, List.forall_mem_nil _, hidle, hup⟩

/-- **Beside a file.** What is written to a path with another extension leaves the file of the path
as it is, unless the extension is the one that the path had. -/
theorem read_of_writeBeside (hextension : '/' ∉ extension.toList) (hne : path.withExtension extension ≠ path)
    (h : tree.write (path.withExtension extension) text = .ok tree') :
    (tree'.read path).toOption = (tree.read path).toOption := by
  cases hname : path.fileName? with
  | none =>
      rw [Path.withExtension, hname] at hne
      exact (hne rfl).elim
  | some name =>
      obtain ⟨directory, idle, hends⟩ := Path.fileName?_eq_some.mp hname
      rcases List.eq_nil_or_concat idle with rfl | ⟨before, last, rfl⟩
      · obtain ⟨hends', names, hplace⟩ := ends_of_write (hends.steps_withExtension hextension) h
        refine read_of_writeElsewhere (fun hsame => hne ?_) h
        rw [hends'.place_eq] at hplace hsame
        rw [hends.place_eq] at hsame
        have heq := Place.next_inj hends.plain hends.up hends'.plain hends'.up hplace hsame.symm
        rw [hends.withExtension_eq, ← heq, ← hends.steps, Path.ofSteps_steps]
      · -- no file is found behind an idle step, before or after
        have hsteps : path.steps = (directory ++ name :: before) ++ [last] := by
          rw [hends.steps, List.concat_eq_append, List.append_assoc]
          rfl
        have hlast : Path.isIdle last = true := hends.idle last (by simp)
        rw [read_of_idle hsteps hlast, read_of_idle hsteps hlast]

end FileTree

end Segue
