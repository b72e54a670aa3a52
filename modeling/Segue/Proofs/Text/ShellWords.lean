import Segue.CommandLine.Reports

/-!
Commands as a shell splits them. Main statement: a line of quoted words is split into just those
words, and whatever of them means something to a shell is taken literally.
-/

namespace Segue.Text.ShellWord

/-- What a shell takes for more than itself where it is not literal, whatever stands around it. -/
def specials : List Char := "|&;<>()$`\\\"' \t\n*?[]^!#~%\x7b,\x7d".toList

/-- A character of a word, and whether it is literal: quoted, so that it means nothing but itself. -/
structure Taken where
  char : Char
  isLiteral : Bool
  deriving DecidableEq, Repr

/-- How the next character of a command is taken: outside of quotes, between single quotes, or
behind a backslash. -/
inductive Mode where
  | bare
  | quoted
  | escaped
  deriving DecidableEq, Repr

/-- What has been seen of a command up to some place. -/
structure Split where
  mode : Mode := .bare
  /-- The word that has begun here, if one has. -/
  word : Option (List Taken) := none
  /-- The words that have ended. -/
  words : List (List Taken) := []
  deriving DecidableEq, Repr

def isSeparator (c : Char) : Bool := c == ' ' || c == '\t'

namespace Split

/-- A word begins here, unless one has begun already. -/
def begin (split : Split) : Split := { split with word := some (split.word.getD []) }

def push (split : Split) (c : Char) (isLiteral : Bool) : Split :=
  { split with word := some (split.word.getD [] ++ [⟨c, isLiteral⟩]) }

def endWord (split : Split) : Split := { split with word := none, words := split.words ++ split.word.toList }

/-- Goes on by one character. A quote begins a word even when nothing stands between it and the next
one. -/
def step (split : Split) (c : Char) : Split :=
  match split.mode with
  | .bare =>
    if isSeparator c then split.endWord
    else if c = '\'' then { split.begin with mode := .quoted }
    else if c = '\\' then { split.begin with mode := .escaped }
    else split.push c false
  | .quoted => if c = '\'' then { split with mode := .bare } else split.push c true
  | .escaped => { split.push c true with mode := .bare }

/-- The words of a command that ends here, unless a quote is still open or nothing stands behind a
backslash. -/
def finish? (split : Split) : Option (List (List Taken)) :=
  match split.mode with
  | .bare => some split.endWord.words
  | .quoted | .escaped => none

end Split

def split? (text : List Char) : Option (List (List Taken)) := (text.foldl Split.step {}).finish?

def textOf (word : List Taken) : String := String.ofList (word.map Taken.char)

/-- What is read of a text as a word: all of it is literal, unless it needs no quotes. -/
def taken (text : String) : List Taken :=
  text.toList.map (Taken.mk · (decide ¬(text ≠ "" ∧ text.toList.all isPlain)))

theorem textOf_taken (text : String) : textOf (taken text) = text := by
  have hchars : (taken text).map Taken.char = text.toList := by
    rw [taken, List.map_map]
    exact List.map_id _
  rw [textOf, hchars, String.ofList_toList]

theorem isPlain_of_mem_specials {c : Char} (h : c ∈ specials) : isPlain c = false := by
  have hall : specials.all (!isPlain ·) = true := by decide
  simpa using List.all_eq_true.mp hall c h

/-- Whatever means something to a shell is literal. -/
theorem isLiteral_of_mem_taken {text : String} {item : Taken} (h : item ∈ taken text)
    (hspecial : item.char ∈ specials) : item.isLiteral = true := by
  obtain ⟨c, hc, rfl⟩ := List.mem_map.mp h
  refine decide_eq_true fun hplain => ?_
  have hall := List.all_eq_true.mp hplain.2 c hc
  rw [isPlain_of_mem_specials hspecial] at hall
  cases hall

/-- No plain character separates words, opens a quote or escapes another one. -/
theorem step_plain {c : Char} (h : isPlain c = true) (word : Option (List Taken)) (words : List (List Taken)) :
    Split.step ⟨.bare, word, words⟩ c = ⟨.bare, some (word.getD [] ++ [⟨c, false⟩]), words⟩ := by
  have hother : ∀ mark ∈ specials, c ≠ mark := by
    rintro mark hmark rfl
    rw [isPlain_of_mem_specials hmark] at h
    cases h
  have hseparator : isSeparator c = false := by
    rw [isSeparator, Bool.or_eq_false_iff, beq_eq_false_iff_ne, beq_eq_false_iff_ne]
    exact ⟨hother ' ' (by decide), hother '\t' (by decide)⟩
  simp only [Split.step, hseparator, Bool.false_eq_true, if_false]
  rw [if_neg (hother '\'' (by decide)), if_neg (hother '\\' (by decide))]
  rfl

/-- A run of plain characters goes on with the word as it stands. -/
theorem foldl_plain {text : List Char} (h : ∀ c ∈ text, isPlain c = true) (read : List Taken)
    (words : List (List Taken)) :
    text.foldl Split.step ⟨.bare, some read, words⟩ = ⟨.bare, some (read ++ text.map (⟨·, false⟩)), words⟩ := by
  induction text generalizing read with
  | nil => rw [List.map_nil, List.append_nil, List.foldl_nil]
  | cons c text ih =>
      obtain ⟨hplain, htext⟩ := List.forall_mem_cons.mp h
      rw [List.foldl_cons, step_plain hplain, ih htext, Option.getD_some, List.append_assoc, List.map_cons,
        List.singleton_append]

/-- Between the quotes every character is literal. A quote among them is, too: the quotes are closed
before it and opened behind it, and there it stands behind a backslash. -/
theorem foldl_escape (text : List Char) (read : List Taken) (words : List (List Taken)) :
    (text.flatMap escape).foldl Split.step ⟨.quoted, some read, words⟩ =
      ⟨.quoted, some (read ++ text.map (⟨·, true⟩)), words⟩ := by
  induction text generalizing read with
  | nil => rw [List.flatMap_nil, List.map_nil, List.append_nil, List.foldl_nil]
  | cons c text ih =>
      have hfront : (escape c).foldl Split.step ⟨.quoted, some read, words⟩ =
          ⟨.quoted, some (read ++ [⟨c, true⟩]), words⟩ := by
        by_cases hquote : c = '\''
        · subst hquote
          rfl
        · simp only [escape, if_neg hquote, List.foldl_cons, List.foldl_nil, Split.step]
          rfl
      rw [List.flatMap_cons, List.foldl_append, hfront, ih, List.append_assoc, List.map_cons, List.singleton_append]

/-- A quoted text is read as one word. -/
theorem foldl_quote (text : String) (words : List (List Taken)) :
    (quote text).toList.foldl Split.step ⟨.bare, none, words⟩ = ⟨.bare, some (taken text), words⟩ := by
  by_cases hplain : text ≠ "" ∧ text.toList.all isPlain
  · have hall : ∀ c ∈ text.toList, isPlain c = true := List.all_eq_true.mp hplain.2
    rw [quote, if_pos hplain, taken, decide_eq_false (not_not_intro hplain)]
    obtain ⟨c, rest, htext⟩ := List.exists_cons_of_ne_nil (mt String.toList_eq_nil_iff.mp hplain.1)
    rw [htext] at hall ⊢
    obtain ⟨hfirst, hrest⟩ := List.forall_mem_cons.mp hall
    rw [List.foldl_cons, step_plain hfirst, foldl_plain hrest]
    rfl
  · have hopen : Split.step ⟨.bare, none, words⟩ '\'' = ⟨.quoted, some [], words⟩ := rfl
    rw [quote, if_neg hplain, taken, decide_eq_true hplain, String.toList_ofList, List.cons_append, List.foldl_cons,
      hopen, List.foldl_append, foldl_escape]
    rfl

theorem toList_line_cons (word next : String) (words : List String) :
    (line (word :: next :: words)).toList = (quote word).toList ++ ' ' :: (line (next :: words)).toList := by
  simp only [line, String.toList_intercalate, List.map_cons, List.intercalate_cons_cons, List.append_assoc]
  rfl

/-- Behind words that have ended, a line is read as the words that it is made of. -/
theorem finish?_foldl_line (words : List String) (before : List (List Taken)) :
    ((line words).toList.foldl Split.step ⟨.bare, none, before⟩).finish? = some (before ++ words.map taken) := by
  induction words generalizing before with
  | nil => rfl
  | cons word words ih =>
      cases words with
      | nil =>
          have hword : (line [word]).toList = (quote word).toList := by
            rw [line, List.map_singleton, String.intercalate_singleton]
          rw [hword, foldl_quote]
          rfl
      | cons next words =>
          have hend : Split.step ⟨.bare, some (taken word), before⟩ ' ' = ⟨.bare, none, before ++ [taken word]⟩ := rfl
          rw [toList_line_cons, List.foldl_append, foldl_quote, List.foldl_cons, hend, ih, List.append_assoc]
          rfl

theorem split?_line (words : List String) : split? (line words).toList = some (words.map taken) :=
  finish?_foldl_line words []

/-- The report on a plan ends with the command that would run. -/
theorem getLast?_planLines (mix : Mix Float) (settings : ExportSettings) (engine : String) (plan : RenderPlan) :
    (CommandLine.planLines mix settings engine plan).getLast? = some (line (engine :: plan.arguments)) := by
  rw [CommandLine.planLines, List.getLast?_append]
  rfl

/-- A line of quoted words is split into just those words, and what means something to a shell is
literal in them. So what the report on a plan ends with is split into the name of the engine and the
arguments of the plan. -/
theorem words_of_line :
    (∀ words : List String, ∃ read, split? (line words).toList = some read ∧ read.map textOf = words ∧
      ∀ word ∈ read, ∀ item ∈ word, item.char ∈ specials → item.isLiteral = true) ∧
      ∀ (mix : Mix Float) (settings : ExportSettings) (engine : String) (plan : RenderPlan), ∃ command read,
        (CommandLine.planLines mix settings engine plan).getLast? = some command ∧
          split? command.toList = some read ∧ read.map textOf = engine :: plan.arguments := by
  have htexts : ∀ words : List String, (words.map taken).map textOf = words := by
    intro words
    rw [List.map_map]
    exact (List.map_congr_left fun word _ => textOf_taken word).trans (List.map_id words)
  refine ⟨fun words => ⟨_, split?_line words, htexts words, fun word hword item hitem hspecial => ?_⟩,
    fun mix settings engine plan => ⟨_, _, getLast?_planLines mix settings engine plan, split?_line _, htexts _⟩⟩
  obtain ⟨text, -, rfl⟩ := List.mem_map.mp hword
  exact isLiteral_of_mem_taken hitem hspecial

example : (split? (line ["-i", "it's\nhere", ""]).toList).map (List.map textOf) = some ["-i", "it's\nhere", ""] := by
  decide

end Segue.Text.ShellWord
