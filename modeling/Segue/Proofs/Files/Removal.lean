import Segue.Files

/-!
Deleting a file. Main statement: once a file has been deleted by a path, there is nothing at that path.
-/

namespace Segue

theorem bind_eq_ok {ε α β : Type} {first : Except ε α} {rest : α → Except ε β} {result : β} :
    first >>= rest = .ok result ↔ ∃ value, first = .ok value ∧ rest value = .ok result := by
  cases first with
  | ok value => exact ⟨fun h => ⟨value, rfl, h⟩, fun ⟨_, hfirst, h⟩ => by cases hfirst; exact h⟩
  | error error =>
      constructor
      · intro h
        cases h
      · rintro ⟨value, hfirst, -⟩
        cases hfirst

theorem toOption_eq_some {ε α : Type} {result : Except ε α} {value : α} :
    result.toOption = some value ↔ result = .ok value := by
  cases result <;> simp [Except.toOption]

namespace FileTree

variable {tree : FileTree} {place place' : Place} {names : List String}

theorem lookup_erased (entries : List (List String × Entry)) :
    (entries.filter fun old => old.1 != names).lookup names = none := by
  rw [List.lookup_eq_none_iff]
  intro old hold
  have hne : old.1 ≠ names := by simpa using (List.mem_filter.mp hold).2
  simpa using Ne.symm hne

theorem lookup_kept {other : List String} (h : other ≠ names) (entries : List (List String × Entry)) :
    (entries.filter fun old => old.1 != names).lookup other = entries.lookup other := by
  induction entries with
  | nil => rfl
  | cons old entries ih =>
      obtain ⟨key, entry⟩ := old
      by_cases hkey : key = names
      · have hother : (other == key) = false := by simpa [hkey] using h
        rw [List.filter_cons_of_neg (by simpa using hkey), ih, List.lookup_cons, hother]
      · rw [List.filter_cons_of_pos (by simpa using hkey), List.lookup_cons, List.lookup_cons, ih]

theorem entry?_erase_of_ne (h : place ≠ .inside names) : entry? (tree.erase names) place = tree.entry? place := by
  match place, h with
  | .outside, _ => rfl
  | .inside [], _ => rfl
  | .inside (name :: rest), h =>
      have hne : name :: rest ≠ names := fun heq => h (congrArg Place.inside heq)
      exact lookup_kept hne tree.entries

theorem entry?_erase_self {text : String} {executable : Bool}
    (h : tree.entry? (.inside names) = some (.file text executable)) :
    entry? (tree.erase names) (.inside names) = none := by
  cases names with
  | nil => cases h
  | cons name rest => exact lookup_erased tree.entries

/-- Whatever leads to a place is a directory. -/
def Leads (tree : FileTree) : Place → Prop
  | .outside => True
  | .inside names =>
    ∀ before rest, names = before ++ rest → rest ≠ [] → tree.entry? (.inside before) = some .directory

/-- What one step does. -/
theorem step_eq_ok {name : String} (h : tree.step place name = .ok place') :
    tree.entry? place = some .directory ∧
      (Path.isIdle name = true ∧ place' = place ∨ Path.isIdle name = false ∧ name = ".." ∧ place' = above place ∨
        Path.isIdle name = false ∧ name ≠ ".." ∧ ∃ names, below place name = .ok names ∧ place' = .inside names ∧
          tree.entry? place' ≠ none) := by
  unfold step at h
  split at h
  · cases h
  · rename_i hdirectory
    refine ⟨Decidable.not_not.mp hdirectory, ?_⟩
    split at h
    · rename_i hidle
      cases h
      exact .inl ⟨hidle, rfl⟩
    · rename_i hidle
      have hidle : Path.isIdle name = false := by simpa using hidle
      split at h
      · rename_i hup
        cases h
        exact .inr (.inl ⟨hidle, hup, rfl⟩)
      · rename_i hup
        obtain ⟨names, hbelow, h⟩ := bind_eq_ok.mp h
        refine .inr (.inr ⟨hidle, hup, names, hbelow, ?_⟩)
        split at h
        · rename_i entry hentry
          cases h
          exact ⟨rfl, by rw [hentry]; exact Option.some_ne_none _⟩
        · cases h

theorem step_of_below {name : String} (hdirectory : tree.entry? place = some .directory)
    (hidle : Path.isIdle name = false) (hup : name ≠ "..") (hbelow : below place name = .ok names) :
    tree.step place name = match tree.entry? (.inside names) with
      | some _ => .ok (.inside names)
      | none => .error .notFound := by
  unfold step
  rw [hdirectory, if_neg (not_not_intro rfl), if_neg (by simp [hidle]), if_neg hup, hbelow]
  rfl

theorem below_eq_ok {name : String} (h : below place name = .ok names) :
    ∃ before, place = .inside before ∧ names = before ++ [name] := by
  unfold below at h
  split at h
  · cases h
  · split at h
    · cases h
    · cases h
      exact ⟨_, rfl, rfl⟩

theorem Leads.above (h : tree.Leads place) :
    tree.entry? (above place) = some .directory ∧ tree.Leads (above place) := by
  unfold FileTree.above
  split
  · exact ⟨rfl, trivial⟩
  · exact ⟨rfl, trivial⟩
  · rename_i names hne
    have hsplit : names.dropLast ++ [names.getLast hne] = names := List.dropLast_concat_getLast hne
    refine ⟨h _ _ hsplit.symm (List.cons_ne_nil _ _), ?_⟩
    intro before rest heq hrest
    rw [heq, List.append_assoc] at hsplit
    exact h before _ hsplit.symm (by simp)

theorem Leads.step {name : String} (h : tree.Leads place) (hstep : tree.step place name = .ok place') :
    tree.Leads place' := by
  obtain ⟨hdirectory, ⟨-, rfl⟩ | ⟨-, -, rfl⟩ | ⟨-, -, names, hbelow, rfl, -⟩⟩ := step_eq_ok hstep
  · exact h
  · exact h.above.2
  · obtain ⟨start, rfl, rfl⟩ := below_eq_ok hbelow
    intro before rest heq hrest
    rcases List.eq_nil_or_concat rest with rfl | ⟨rest, last, rfl⟩
    · exact (hrest rfl).elim
    · rw [List.concat_eq_append, ← List.append_assoc] at heq
      obtain ⟨rfl, -⟩ := List.append_inj' heq rfl
      cases rest with
      | nil =>
          rw [List.append_nil] at hdirectory
          exact hdirectory
      | cons name rest => exact h before _ rfl (List.cons_ne_nil _ _)

theorem Leads.walk (h : tree.Leads place) {steps : List String} (hwalk : steps.foldlM tree.step place = .ok place') :
    tree.Leads place' := by
  induction steps generalizing place with
  | nil =>
      cases hwalk
      exact h
  | cons name steps ih =>
      obtain ⟨between, hstep, hwalk⟩ := bind_eq_ok.mp hwalk
      exact ih (h.step hstep) hwalk

theorem leads_startOf (path : Path) : tree.Leads (startOf path) := by
  unfold startOf
  split
  · trivial
  · intro before rest heq hrest
    obtain ⟨-, rfl⟩ := List.append_eq_nil_iff.mp heq.symm
    exact (hrest rfl).elim

/-- A step that does not end at the file is the same without it. -/
theorem step_erase {text : String} {executable : Bool} {name : String}
    (hfile : tree.entry? (.inside names) = some (.file text executable)) (hne : place' ≠ .inside names)
    (hstep : tree.step place name = .ok place') : (tree.erase names).step place name = .ok place' := by
  obtain ⟨hdirectory, hcases⟩ := step_eq_ok hstep
  have hplace : place ≠ .inside names := by
    rintro rfl
    rw [hfile] at hdirectory
    cases hdirectory
  rw [← entry?_erase_of_ne hplace] at hdirectory
  rcases hcases with ⟨hidle, rfl⟩ | ⟨hidle, hup, rfl⟩ | ⟨hidle, hup, others, hbelow, rfl, hentry⟩
  · rw [step, hdirectory, if_neg (not_not_intro rfl), if_pos hidle]
  · rw [step, hdirectory, if_neg (not_not_intro rfl), if_neg (by simp [hidle]), if_pos hup]
  · rw [step_of_below hdirectory hidle hup hbelow, entry?_erase_of_ne hne]
    cases hother : tree.entry? (.inside others) with
    | none => exact (hentry hother).elim
    | some entry => rfl

/-- A walk to a directory is the same without a file. -/
theorem walk_erase {text : String} {executable : Bool} {steps : List String}
    (hfile : tree.entry? (.inside names) = some (.file text executable))
    (hdirectory : tree.entry? place' = some .directory) (hwalk : steps.foldlM tree.step place = .ok place') :
    steps.foldlM (tree.erase names).step place = .ok place' := by
  -- a walk that goes on, or ends at a directory, is not at the file
  have hstays : ∀ {steps : List String} {place : Place}, steps.foldlM tree.step place = .ok place' →
      place ≠ .inside names := by
    intro steps place hwalk
    rintro rfl
    cases steps with
    | nil =>
        cases hwalk
        rw [hfile] at hdirectory
        cases hdirectory
    | cons name steps =>
        obtain ⟨between, hstep, -⟩ := bind_eq_ok.mp hwalk
        have hplace := (step_eq_ok hstep).1
        rw [hfile] at hplace
        cases hplace
  induction steps generalizing place with
  | nil => exact hwalk
  | cons name steps ih =>
      obtain ⟨between, hstep, hwalk⟩ := bind_eq_ok.mp hwalk
      exact bind_eq_ok.mpr ⟨between, step_erase hfile (hstays hwalk) hstep, ih hwalk⟩

theorem splitTrailing_of_eq_false {path : Path} (h : (splitTrailing path).2 = false) :
    (splitTrailing path).1 = path.steps := by
  have hsuffix : path.steps.reverse.dropWhile (· == "") <:+ path.steps.reverse := List.dropWhile_suffix _
  have hle := hsuffix.length_le
  have hge : path.steps.length ≤ (splitTrailing path).1.length := by simpa [splitTrailing] using h
  unfold splitTrailing at hge ⊢
  rw [List.length_reverse] at hge hle
  rw [hsuffix.eq_of_length (by rw [List.length_reverse]; omega), List.reverse_reverse]

/-- Names lead to what the last step of a path names in a directory that is there. -/
inductive Named (tree : FileTree) (path : Path) (names : List String) : Prop
  | intro {steps : List String} {name : String} {place : Place} (hsteps : (splitTrailing path).1 = steps ++ [name])
      (hwalk : steps.foldlM tree.step (startOf path) = .ok place) (hidle : Path.isIdle name = false)
      (hup : name ≠ "..") (hdirectory : tree.entry? place = some .directory) (hbelow : below place name = .ok names)

/-- Where a path that may name something new leads: to its start when it has no steps, and otherwise
from the directory that all steps but the last lead to. -/
inductive Aims (tree : FileTree) (path : Path) (makesFile : Bool) : Target → Prop
  | start (hsteps : (splitTrailing path).1 = []) : Aims tree path makesFile (.taken (startOf path))
  | walked {steps : List String} {name : String} {place place' : Place}
      (hsteps : (splitTrailing path).1 = steps ++ [name])
      (hwalk : steps.foldlM tree.step (startOf path) = .ok place) (hname : Path.isIdle name = true ∨ name = "..")
      (hstep : tree.step place name = .ok place') : Aims tree path makesFile (.taken place')
  | old {names : List String} (hnamed : tree.Named path names)
      (htrailing : makesFile = true → (splitTrailing path).2 = false)
      (hentry : tree.entry? (.inside names) ≠ none) : Aims tree path makesFile (.taken (.inside names))
  | new {names : List String} (hnamed : tree.Named path names)
      (htrailing : makesFile = true → (splitTrailing path).2 = false)
      (hentry : tree.entry? (.inside names) = none) : Aims tree path makesFile (.free names)

theorem target_eq_ok {path : Path} {makesFile trailing : Bool} {target : Target}
    (h : tree.target path makesFile = .ok (target, trailing)) :
    path.check = .ok () ∧ trailing = (splitTrailing path).2 ∧ tree.Aims path makesFile target := by
  unfold FileTree.target at h
  obtain ⟨_, hcheck, h⟩ := bind_eq_ok.mp h
  refine ⟨hcheck, ?_⟩
  cases hsplit : splitTrailing path with
  | mk steps ends =>
      rw [hsplit] at h
      dsimp only at h
      have hends : (splitTrailing path).2 = ends := congrArg Prod.snd hsplit
      split at h
      · rename_i hnone
        cases h
        exact ⟨rfl, .start ((congrArg Prod.fst hsplit).trans (List.getLast?_eq_none_iff.mp hnone))⟩
      · rename_i name hname
        obtain ⟨before, rfl⟩ := List.getLast?_eq_some_iff.mp hname
        have hsteps : (splitTrailing path).1 = before ++ [name] := congrArg Prod.fst hsplit
        rw [List.dropLast_concat] at h
        obtain ⟨place, hwalk, h⟩ := bind_eq_ok.mp h
        split at h
        · rename_i hname
          obtain ⟨reached, hstep, h⟩ := bind_eq_ok.mp h
          cases h
          exact ⟨rfl, .walked hsteps hwalk hname hstep⟩
        · rename_i hname
          rw [not_or, Bool.not_eq_true] at hname
          split at h
          · cases h
          · rename_i hdirectory
            have hdirectory := Decidable.not_not.mp hdirectory
            split at h
            · cases h
            · rename_i hfile
              have htrailing : makesFile = true → (splitTrailing path).2 = false := by
                intro hmakes
                rw [hends]
                exact Bool.eq_false_iff.mpr fun htrue => hfile ⟨hmakes, htrue⟩
              split at h
              · cases h
              · obtain ⟨names, hbelow, h⟩ := bind_eq_ok.mp h
                have hnamed : tree.Named path names := .intro hsteps hwalk hname.1 hname.2 hdirectory hbelow
                split at h
                · rename_i entry hentry
                  cases h
                  exact ⟨rfl, .old hnamed htrailing (by rw [hentry]; exact Option.some_ne_none entry)⟩
                · rename_i hentry
                  cases h
                  exact ⟨rfl, .new hnamed htrailing hentry⟩

/-- Something that a path without a slash at its end names is where a walk and then a step by its
name lead. -/
theorem target_eq_taken {path : Path} {makesFile : Bool}
    (h : tree.target path makesFile = .ok (.taken place', false)) :
    path.check = .ok () ∧ (place' = startOf path ∨ ∃ steps name place, path.steps = steps ++ [name] ∧
      steps.foldlM tree.step (startOf path) = .ok place ∧ tree.step place name = .ok place') := by
  obtain ⟨hcheck, htrailing, haims⟩ := target_eq_ok h
  refine ⟨hcheck, ?_⟩
  have hpath : (splitTrailing path).1 = path.steps := splitTrailing_of_eq_false htrailing.symm
  cases haims with
  | start => exact .inl rfl
  | walked hsteps hwalk _ hstep => exact .inr ⟨_, _, _, hpath.symm.trans hsteps, hwalk, hstep⟩
  | @old names hnamed _ hentry =>
      obtain ⟨hsteps, hwalk, hidle, hup, hdirectory, hbelow⟩ := hnamed
      refine .inr ⟨_, _, _, hpath.symm.trans hsteps, hwalk, ?_⟩
      rw [step_of_below hdirectory hidle hup hbelow]
      cases hthere : tree.entry? (.inside names) with
      | none => exact (hentry hthere).elim
      | some entry => rfl

/-- What has been deleted was a file, which a walk and then a step by its name led to. -/
theorem remove_eq_ok {path : Path} {tree' : FileTree} (h : tree.remove path = .ok tree') :
    ∃ steps name place names text executable, path.check = .ok () ∧ path.steps = steps ++ [name] ∧
      steps.foldlM tree.step (startOf path) = .ok place ∧ tree.step place name = .ok (.inside names) ∧
      tree.entry? (.inside names) = some (.file text executable) ∧ tree' = tree.erase names := by
  unfold remove at h
  obtain ⟨⟨target, trailing⟩, htarget, h⟩ := bind_eq_ok.mp h
  split at h
  · cases h
  · rename_i place' trailing' heq
    cases heq
    split at h
    · rename_i place'' entry names text executable hfile
      split at h
      · cases h
      · rename_i htrailing
        cases h
        have htrailing : trailing = false := by simpa using htrailing
        subst htrailing
        obtain ⟨hcheck, hstart | ⟨steps, name, place, hsteps, hwalk, hstep⟩⟩ := target_eq_taken htarget
        · have hroot : tree.entry? (startOf path) = some .directory := by
            unfold startOf
            split <;> rfl
          rw [← hstart, hfile] at hroot
          cases hroot
        · exact ⟨steps, name, place, names, text, executable, hcheck, hsteps, hwalk, hstep, hfile, rfl⟩
    · cases h

/-- **Deleting.** Where a file has been deleted, nothing is left. -/
theorem contains_of_remove {path : Path} {tree' : FileTree} (h : tree.remove path = .ok tree') :
    tree'.contains path = false := by
  obtain ⟨steps, name, place, names, text, executable, hcheck, hsteps, hwalk, hstep, hfile, rfl⟩ := remove_eq_ok h
  obtain ⟨hdirectory, hcases⟩ := step_eq_ok hstep
  have hwalk' := walk_erase hfile hdirectory hwalk
  have hplace : place ≠ .inside names := by
    rintro rfl
    rw [hfile] at hdirectory
    cases hdirectory
  have hlast : (tree.erase names).step place name = .error .notFound := by
    rcases hcases with ⟨-, hhere⟩ | ⟨-, -, hhere⟩ | ⟨hidle, hup, others, hbelow, hhere, -⟩
    · exact (hplace hhere.symm).elim
    · -- a step up leads to a directory, and what was deleted is a file
      have habove := ((leads_startOf path).walk hwalk).above.1
      rw [← hhere, hfile] at habove
      cases habove
    · cases hhere
      rw [← entry?_erase_of_ne hplace] at hdirectory
      rw [step_of_below hdirectory hidle hup hbelow, entry?_erase_self hfile]
  have hfind : (tree.erase names).find path = .error .notFound := by
    unfold find
    rw [hcheck, hsteps]
    change (steps ++ [name]).foldlM (tree.erase names).step (startOf path) = _
    rw [List.foldlM_append, hwalk']
    change ([name].foldlM (tree.erase names).step place) = _
    rw [List.foldlM_cons, hlast]
    rfl
  rw [contains, hfind]
  rfl

end FileTree

end Segue
