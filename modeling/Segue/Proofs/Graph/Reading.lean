import Segue.Proofs.Graph.Checked
import Segue.Proofs.Text.Parts

/-!
Reading a graph back from its text. Main statement: a graph whose labels, names and values keep
clear of the characters that the text is cut at is read back from its text.
-/

namespace Segue

/-- A row of texts has what all of them and what stands between them have. -/
theorem forall_intercalate {p : List Char → Prop} {separator : List Char} (hnil : p [])
    (happend : ∀ first second, p first → p second → p (first ++ second)) (hseparator : p separator)
    {texts : List (List Char)} (htexts : ∀ text ∈ texts, p text) : p (separator.intercalate texts) := by
  induction texts with
  | nil => exact hnil
  | cons text texts ih =>
      have htext := htexts text List.mem_cons_self
      cases texts with
      | nil =>
          rw [List.intercalate_singleton]
          exact htext
      | cons second texts =>
          have ih := ih fun text htext => htexts text (List.mem_cons_of_mem _ htext)
          rw [List.intercalate_cons_cons]
          exact happend _ _ (happend _ _ htext hseparator) ih

/-- What stands before the first mark, and what stands behind it when there is one. -/
def cutFirst (mark : Char) (text : List Char) : List Char × Option (List Char) :=
  (text.takeWhile (· != mark), (text.dropWhile (· != mark)).tail?)

theorem cutFirst_append {mark : Char} {text : List Char} (h : mark ∉ text) (later : List Char) :
    cutFirst mark (text ++ mark :: later) = (text, some later) := by
  have hall : ∀ c ∈ text, (c != mark) = true := fun c hc => bne_iff_ne.mpr fun heq => h (heq ▸ hc)
  have hmark : ∀ c, (mark :: later).head? = some c → (c != mark) = false := by
    rintro c ⟨⟩
    simp
  obtain ⟨htake, hdrop⟩ := span_append hall hmark
  rw [cutFirst, htake, hdrop]
  rfl

theorem cutFirst_of_not_mem {mark : Char} {text : List Char} (h : mark ∉ text) :
    cutFirst mark text = (text, none) := by
  have hall : ∀ c ∈ text, (c != mark) = true := fun c hc => bne_iff_ne.mpr fun heq => h (heq ▸ hc)
  have hnone : ∀ c, ([] : List Char).head? = some c → (c != mark) = false := nofun
  obtain ⟨htake, hdrop⟩ := span_append hall hnone
  rw [List.append_nil] at htake hdrop
  rw [cutFirst, htake, hdrop]
  rfl

theorem length_of_cutFirst {mark : Char} {text before later : List Char}
    (h : cutFirst mark text = (before, some later)) : later.length < text.length := by
  have htail : (text.dropWhile (· != mark)).tail? = some later := congrArg Prod.snd h
  have hlength := (text.dropWhile_suffix (· != mark)).length_le
  cases hdrop : text.dropWhile (· != mark) with
  | nil => simp [hdrop] at htail
  | cons c rest =>
      rw [hdrop, List.tail?_cons, Option.some.injEq] at htail
      rw [hdrop, List.length_cons, htail] at hlength
      exact hlength

/-- The labels between an opening and a closing bracket that some text starts with, and what follows
them. -/
def leadingLabels (opening closing : Char) : List Char → List (List Char) × List Char
  | [] => ([], [])
  | c :: rest =>
    if c = opening then
      match h : cutFirst closing rest with
      | (_, none) => ([], c :: rest)
      | (label, some later) =>
        have : later.length < rest.length := length_of_cutFirst h
        (leadingLabels opening closing later).map (label :: ·) id
    else ([], c :: rest)
termination_by text => text.length

/-- A label between its brackets. -/
def bracketed (opening closing : Char) (label : List Char) : List Char := opening :: (label ++ [closing])

theorem reverse_bracketed (opening closing : Char) (label : List Char) :
    (bracketed opening closing label).reverse = bracketed closing opening label.reverse := by
  simp [bracketed]

theorem leadingLabels_of_head? {opening : Char} {text : List Char} (h : text.head? ≠ some opening) (closing : Char) :
    leadingLabels opening closing text = ([], text) := by
  cases text with
  | nil => rw [leadingLabels]
  | cons c rest => rw [leadingLabels, if_neg fun hc => h (congrArg some hc)]

theorem leadingLabels_cons {closing : Char} {label : List Char} (h : closing ∉ label) (opening : Char)
    (text : List Char) :
    leadingLabels opening closing (bracketed opening closing label ++ text) =
      (leadingLabels opening closing text).map (label :: ·) id := by
  have hcut := cutFirst_append h text
  rw [bracketed, List.cons_append, List.append_assoc, List.singleton_append, leadingLabels, if_pos rfl]
  split
  · rename_i hfound
    rw [hcut] at hfound
    cases hfound
  · rename_i hfound
    rw [hcut] at hfound
    cases hfound
    rfl

/-- Labels in brackets are read up to where something else begins. -/
theorem leadingLabels_append {opening closing : Char} {labels : List (List Char)} {text : List Char}
    (hlabels : ∀ label ∈ labels, closing ∉ label) (htext : text.head? ≠ some opening) :
    leadingLabels opening closing (labels.flatMap (bracketed opening closing) ++ text) = (labels, text) := by
  induction labels with
  | nil => exact leadingLabels_of_head? htext closing
  | cons label labels ih =>
      have ih := ih fun label hlabel => hlabels label (List.mem_cons_of_mem _ hlabel)
      rw [List.flatMap_cons, List.append_assoc, leadingLabels_cons (hlabels label List.mem_cons_self), ih]
      rfl

/-- The labels in brackets that some text ends with, and what stands before them. -/
def trailingLabels (opening closing : Char) (text : List Char) : List (List Char) × List Char :=
  (leadingLabels closing opening text.reverse).map (fun labels => (labels.map List.reverse).reverse) List.reverse

theorem trailingLabels_append {opening closing : Char} {labels : List (List Char)} {text : List Char}
    (hlabels : ∀ label ∈ labels, opening ∉ label) (htext : text.getLast? ≠ some closing) :
    trailingLabels opening closing (text ++ labels.flatMap (bracketed opening closing)) = (labels, text) := by
  have hreverse : (text ++ labels.flatMap (bracketed opening closing)).reverse =
      (labels.map List.reverse).reverse.flatMap (bracketed closing opening) ++ text.reverse := by
    rw [List.reverse_append, List.reverse_flatMap, ← List.map_reverse, List.flatMap_map]
    congr 2
    funext label
    exact reverse_bracketed opening closing label
  have hlabels' : ∀ label ∈ (labels.map List.reverse).reverse, opening ∉ label := by
    intro label hlabel
    obtain ⟨straight, hstraight, rfl⟩ := List.mem_map.mp (List.mem_reverse.mp hlabel)
    exact mt List.mem_reverse.mp (hlabels straight hstraight)
  rw [trailingLabels, hreverse, leadingLabels_append hlabels' (by rwa [List.head?_reverse])]
  simp

/-- The text cut at its commas outside single quotes; whether it starts inside them is told. -/
def cutUnquoted (quoted : Bool) : List Char → List (List Char)
  | [] => [[]]
  | c :: rest =>
    if c = ',' ∧ quoted = false then [] :: cutUnquoted false rest
    else (cutUnquoted (if c = '\'' then !quoted else quoted) rest).modifyHead (c :: ·)

/-- A text that is not cut, and in front of another one leaves the cuts of that as they are. -/
def Uncut (text : List Char) : Prop :=
  ∀ rest, cutUnquoted false (text ++ rest) = (cutUnquoted false rest).modifyHead (text ++ ·)

theorem uncut_nil : Uncut [] := by
  intro rest
  exact (List.modifyHead_id).symm ▸ rfl

theorem Uncut.append {first second : List Char} (hfirst : Uncut first) (hsecond : Uncut second) :
    Uncut (first ++ second) := by
  intro rest
  rw [List.append_assoc, hfirst, hsecond, List.modifyHead_modifyHead]
  congr 1
  funext text
  exact (List.append_assoc _ _ _).symm

theorem Uncut.cutUnquoted_eq {text : List Char} (h : Uncut text) : cutUnquoted false text = [text] := by
  have hrest := h []
  rw [List.append_nil] at hrest
  rw [hrest, cutUnquoted, List.modifyHead_cons, List.append_nil]

theorem uncut_of_not_mem {text : List Char} (hcomma : ',' ∉ text) (hquote : '\'' ∉ text) : Uncut text := by
  induction text with
  | nil => exact uncut_nil
  | cons c text ih =>
      rw [List.mem_cons, not_or] at hcomma hquote
      intro rest
      rw [List.cons_append, cutUnquoted, if_neg fun h => hcomma.1 h.1.symm, if_neg (Ne.symm hquote.1),
        ih hcomma.2 hquote.2, List.modifyHead_modifyHead]
      rfl

theorem cutUnquoted_inside {text : List Char} (hquote : '\'' ∉ text) (rest : List Char) :
    cutUnquoted true (text ++ rest) = (cutUnquoted true rest).modifyHead (text ++ ·) := by
  induction text with
  | nil => exact (List.modifyHead_id).symm ▸ rfl
  | cons c text ih =>
      rw [List.mem_cons, not_or] at hquote
      rw [List.cons_append, cutUnquoted, if_neg fun h => Bool.noConfusion h.2, if_neg (Ne.symm hquote.1),
        ih hquote.2, List.modifyHead_modifyHead]
      rfl

/-- Nothing is cut between quotes. -/
theorem uncut_quoted {text : List Char} (hquote : '\'' ∉ text) : Uncut ('\'' :: (text ++ ['\''])) := by
  intro rest
  rw [List.cons_append, List.append_assoc, List.singleton_append, cutUnquoted, if_neg (by decide), if_pos rfl,
    Bool.not_false, cutUnquoted_inside hquote, cutUnquoted, if_neg (by decide), if_pos rfl, Bool.not_true,
    List.modifyHead_modifyHead, List.modifyHead_modifyHead]
  congr 1
  funext later
  simp

theorem cutUnquoted_intercalate {texts : List (List Char)} (huncut : ∀ text ∈ texts, Uncut text)
    (htexts : texts ≠ []) : cutUnquoted false ([','].intercalate texts) = texts := by
  induction texts with
  | nil => exact absurd rfl htexts
  | cons text texts ih =>
      have htext := huncut text List.mem_cons_self
      cases texts with
      | nil =>
          rw [List.intercalate_singleton]
          exact htext.cutUnquoted_eq
      | cons second texts =>
          have ih := ih (fun text htext => huncut text (List.mem_cons_of_mem _ htext)) (List.cons_ne_nil _ _)
          rw [List.intercalate_cons_cons, List.append_assoc, htext, List.singleton_append, cutUnquoted,
            if_pos ⟨rfl, rfl⟩, ih, List.modifyHead_cons, List.append_nil]

/-- An option has a key when there is an equals sign in it. -/
def FilterOption.read (text : List Char) : FilterOption :=
  match cutFirst '=' text with
  | (value, none) => Filter.positional (String.ofList value)
  | (key, some value) => Filter.keyed (String.ofList key) (String.ofList value)

/-- The name of a filter stands before the first equals sign, and behind it options with colons
between them. -/
def Filter.read (text : List Char) : Filter :=
  match cutFirst '=' text with
  | (name, none) => { name := String.ofList name }
  | (name, some options) =>
    { name := String.ofList name, options := (options.splitOn ':').map FilterOption.read }

/-- Inputs stand before the filters of a stage and outputs behind them. -/
def Stage.read (text : List Char) : Stage Filter :=
  let (inputs, rest) := leadingLabels '[' ']' text
  let (outputs, middle) := trailingLabels '[' ']' rest
  { inputs := inputs.map fun label => ⟨String.ofList label⟩
    filters := (cutUnquoted false middle).map Filter.read
    outputs := outputs.map fun label => ⟨String.ofList label⟩ }

/-- Stages have semicolons between them. -/
def Graph.read (text : String) : Graph Filter := (text.toList.splitOn ';').map Stage.read

/-! ### What can be read back -/

/-- None of some characters stands in a text. -/
def Avoids (text marks : List Char) : Prop := ∀ c ∈ text, c ∉ marks

instance (text marks : List Char) : Decidable (Avoids text marks) :=
  List.decidableBAll (fun c => c ∉ marks) text

namespace Avoids

variable {text marks : List Char}

theorem cons {c : Char} (hc : c ∉ marks) (htext : Avoids text marks) : Avoids (c :: text) marks :=
  List.forall_mem_cons.mpr ⟨hc, htext⟩

theorem append {first second : List Char} (hfirst : Avoids first marks) (hsecond : Avoids second marks) :
    Avoids (first ++ second) marks := by
  intro c hc
  rcases List.mem_append.mp hc with hc | hc
  · exact hfirst c hc
  · exact hsecond c hc

theorem mono {others : List Char} (h : Avoids text marks) (hsubset : others ⊆ marks) : Avoids text others :=
  fun c hc hmem => h c hc (hsubset hmem)

theorem intercalate {separator : List Char} (hseparator : Avoids separator marks) {texts : List (List Char)}
    (htexts : ∀ text ∈ texts, Avoids text marks) : Avoids (separator.intercalate texts) marks :=
  forall_intercalate (p := fun text => Avoids text marks) nofun (fun _ _ => append) hseparator htexts

theorem not_mem {mark : Char} (h : Avoids text marks) (hmark : mark ∈ marks) : mark ∉ text :=
  fun hmem => h mark hmem hmark

end Avoids

namespace Graph

/-- The characters that the text of a graph is cut at. -/
def marks : List Char := [';', '[', ']', ':', '=', ',', '\'']

/-- Those that nothing in quotes may contain. -/
def quotedMarks : List Char := [';', '[', ']', ':', '\'']

/-- Those that no option may contain. -/
def optionMarks : List Char := [';', '[', ']', ':']

/-- Those that no label and no filter may contain. -/
def outerMarks : List Char := [';', '[', ']']

end Graph

open Segue.Graph (marks quotedMarks optionMarks outerMarks)

/-- An option that is told from others: its value contains no mark, or it has a key and its value is
in quotes. -/
structure FilterOption.IsClear (option : FilterOption) : Prop where
  key : ∀ key ∈ option.key, Avoids key.toList marks
  value : Avoids option.value.toList marks ∨ option.key.isSome ∧
    ∃ body : String, option.value = "'" ++ body ++ "'" ∧ Avoids body.toList quotedMarks

structure Filter.IsClear (filter : Filter) : Prop where
  nonempty : filter.name ≠ ""
  name : Avoids filter.name.toList marks
  options : ∀ option ∈ filter.options, option.IsClear

structure Stage.IsClear (stage : Stage Filter) : Prop where
  nonempty : stage.filters ≠ []
  filters : ∀ filter ∈ stage.filters, filter.IsClear
  inputs : ∀ pad ∈ stage.inputs, Avoids pad.label.toList outerMarks
  outputs : ∀ pad ∈ stage.outputs, Avoids pad.label.toList outerMarks

theorem Avoids.uncut {text : List Char} (h : Avoids text marks) : Uncut text :=
  uncut_of_not_mem (h.not_mem (by decide)) (h.not_mem (by decide))

namespace FilterOption

variable {option : FilterOption}

theorem IsClear.uncut_value (h : option.IsClear) : Uncut option.value.toList := by
  rcases h.value with hplain | ⟨-, body, hvalue, hbody⟩
  · exact hplain.uncut
  · rw [hvalue, String.toList_append, String.toList_append]
    exact uncut_quoted (hbody.not_mem (by decide))

theorem IsClear.avoids_value (h : option.IsClear) : Avoids option.value.toList optionMarks := by
  rcases h.value with hplain | ⟨-, body, hvalue, hbody⟩
  · exact hplain.mono (by decide)
  · have hquote : Avoids "'".toList optionMarks := by decide
    rw [hvalue, String.toList_append, String.toList_append]
    exact (hquote.append (hbody.mono (by decide))).append hquote

theorem IsClear.uncut_text (h : option.IsClear) : Uncut (Filter.optionText option).toList := by
  rw [Filter.optionText]
  cases hkey : option.key with
  | none => exact h.uncut_value
  | some key =>
      have hequals : Uncut "=".toList := uncut_of_not_mem (by decide) (by decide)
      rw [String.toList_append, String.toList_append]
      exact ((h.key key hkey).uncut.append hequals).append h.uncut_value

theorem IsClear.avoids_text (h : option.IsClear) : Avoids (Filter.optionText option).toList optionMarks := by
  rw [Filter.optionText]
  cases hkey : option.key with
  | none => exact h.avoids_value
  | some key =>
      have hequals : Avoids "=".toList optionMarks := by decide
      rw [String.toList_append, String.toList_append]
      exact (((h.key key hkey).mono (by decide)).append hequals).append h.avoids_value

theorem IsClear.read_text (h : option.IsClear) : read (Filter.optionText option).toList = option := by
  obtain ⟨key, value⟩ := option
  cases key with
  | none =>
      have hvalue : '=' ∉ value.toList := by
        rcases h.value with hplain | ⟨hkeyed, -⟩
        · exact hplain.not_mem (by decide)
        · cases hkeyed
      rw [read, Filter.optionText, cutFirst_of_not_mem hvalue]
      simp only [String.ofList_toList, Filter.positional]
  | some key =>
      have hkey : '=' ∉ key.toList := (h.key key rfl).not_mem (by decide)
      have htext : (Filter.optionText ⟨some key, value⟩).toList = key.toList ++ '=' :: value.toList := by
        rw [Filter.optionText, String.toList_append, String.toList_append, List.append_assoc]
        rfl
      rw [read, htext, cutFirst_append hkey]
      simp only [String.ofList_toList, Filter.keyed]

end FilterOption

namespace Filter

variable {filter : Filter}

theorem toList_text_of_nil (h : filter.options = []) : filter.text.toList = filter.name.toList := by
  rw [text, h]

theorem toList_text_of_ne (h : filter.options ≠ []) :
    filter.text.toList = filter.name.toList ++ '=' ::
      [':'].intercalate (filter.options.map fun option => (optionText option).toList) := by
  rw [text]
  split
  · exact absurd ‹_› h
  · rw [String.toList_append, String.toList_append, String.toList_intercalate, List.append_assoc, List.map_map]
    rfl

theorem IsClear.uncut_text (h : filter.IsClear) : Uncut filter.text.toList := by
  by_cases hoptions : filter.options = []
  · rw [toList_text_of_nil hoptions]
    exact h.name.uncut
  · have hequals : Uncut ['='] := uncut_of_not_mem (by decide) (by decide)
    have hrow : Uncut ([':'].intercalate (filter.options.map fun option => (optionText option).toList)) := by
      refine forall_intercalate uncut_nil (fun _ _ => Uncut.append) ?_ ?_
      · exact uncut_of_not_mem (by decide) (by decide)
      · exact List.forall_mem_map.mpr fun option hoption => (h.options option hoption).uncut_text
    rw [toList_text_of_ne hoptions]
    exact h.name.uncut.append (hequals.append hrow)

theorem IsClear.avoids_text (h : filter.IsClear) : Avoids filter.text.toList outerMarks := by
  have hname : Avoids filter.name.toList outerMarks := h.name.mono (by decide)
  by_cases hoptions : filter.options = []
  · rw [toList_text_of_nil hoptions]
    exact hname
  · have hequals : Avoids ['='] outerMarks := by decide
    have hrow :
        Avoids ([':'].intercalate (filter.options.map fun option => (optionText option).toList)) outerMarks := by
      refine Avoids.intercalate (by decide) (List.forall_mem_map.mpr fun option hoption => ?_)
      exact (h.options option hoption).avoids_text.mono (by decide)
    rw [toList_text_of_ne hoptions]
    exact hname.append (hequals.append hrow)

/-- A clear filter is read back. -/
theorem IsClear.read_text (h : filter.IsClear) : read filter.text.toList = filter := by
  obtain ⟨name, options⟩ := filter
  have hname : '=' ∉ name.toList := h.name.not_mem (by decide)
  by_cases hoptions : options = []
  · rw [hoptions, read, toList_text_of_nil rfl, cutFirst_of_not_mem hname]
    simp only [String.ofList_toList]
  · have htexts : ∀ text ∈ options.map fun option => (optionText option).toList, ':' ∉ text :=
      List.forall_mem_map.mpr fun option hoption =>
        (h.options option hoption).avoids_text.not_mem (by decide)
    have hread : (options.map fun option => (optionText option).toList).map FilterOption.read = options := by
      rw [List.map_map]
      exact (List.map_congr_left fun option hoption => (h.options option hoption).read_text).trans (List.map_id _)
    rw [read, toList_text_of_ne hoptions, cutFirst_append hname]
    simp only [String.ofList_toList, List.splitOn_intercalate _ htexts (mt List.map_eq_nil_iff.mp hoptions), hread]

end Filter

theorem toList_join_pads (pads : List Pad) :
    (String.join (pads.map Pad.text)).toList = (pads.map fun pad => pad.label.toList).flatMap (bracketed '[' ']') := by
  rw [String.toList_join, List.flatMap_map, List.flatMap_map]
  congr 1
  funext pad
  rw [Pad.text, String.toList_append, String.toList_append, List.append_assoc]
  rfl

theorem map_pad_ofList (pads : List Pad) :
    ((pads.map fun pad => pad.label.toList).map fun label => (⟨String.ofList label⟩ : Pad)) = pads := by
  rw [List.map_map]
  exact (List.map_congr_left fun pad _ => congrArg Pad.mk String.ofList_toList).trans (List.map_id _)

namespace Stage

variable {stage : Stage Filter}

/-- The text of the filters of a stage, with commas between them. -/
def middle (stage : Stage Filter) : List Char := [','].intercalate (stage.filters.map fun filter => filter.text.toList)

theorem toList_text (stage : Stage Filter) :
    stage.text.toList = (stage.inputs.map fun pad => pad.label.toList).flatMap (bracketed '[' ']') ++
      (stage.middle ++ (stage.outputs.map fun pad => pad.label.toList).flatMap (bracketed '[' ']')) := by
  rw [text, String.toList_append, String.toList_append, toList_join_pads, toList_join_pads, String.toList_intercalate,
    List.map_map, List.append_assoc]
  rfl

theorem IsClear.cutUnquoted_middle (h : stage.IsClear) :
    cutUnquoted false stage.middle = stage.filters.map fun filter => filter.text.toList := by
  refine cutUnquoted_intercalate ?_ (mt List.map_eq_nil_iff.mp h.nonempty)
  exact List.forall_mem_map.mpr fun filter hfilter => (h.filters filter hfilter).uncut_text

theorem IsClear.avoids_middle (h : stage.IsClear) : Avoids stage.middle outerMarks :=
  Avoids.intercalate (by decide) (List.forall_mem_map.mpr fun filter hfilter => (h.filters filter hfilter).avoids_text)

/-- The filters are cut out of the middle, so there is something in it. -/
theorem IsClear.middle_ne_nil (h : stage.IsClear) : stage.middle ≠ [] := by
  intro hnil
  have hcut := h.cutUnquoted_middle
  rw [hnil] at hcut
  have hempty : [] ∈ stage.filters.map fun filter => filter.text.toList := hcut ▸ List.mem_singleton_self []
  obtain ⟨filter, hfilter, htext⟩ := List.mem_map.mp hempty
  have hname : filter.name.toList = [] := by
    rw [Filter.text] at htext
    split at htext
    · exact htext
    · rw [String.toList_append, String.toList_append, List.append_assoc] at htext
      exact (List.append_eq_nil_iff.mp htext).1
  exact (h.filters filter hfilter).nonempty (String.toList_eq_nil_iff.mp hname)

/-- A clear stage is read back. -/
theorem IsClear.read_text (h : stage.IsClear) : read stage.text.toList = stage := by
  have hinputs : ∀ label ∈ stage.inputs.map fun pad => pad.label.toList, ']' ∉ label :=
    List.forall_mem_map.mpr fun pad hpad => (h.inputs pad hpad).not_mem (by decide)
  have houtputs : ∀ label ∈ stage.outputs.map fun pad => pad.label.toList, '[' ∉ label :=
    List.forall_mem_map.mpr fun pad hpad => (h.outputs pad hpad).not_mem (by decide)
  have hfirst : (stage.middle ++ (stage.outputs.map fun pad => pad.label.toList).flatMap
      (bracketed '[' ']')).head? ≠ some '[' := by
    rw [List.head?_append_of_ne_nil _ h.middle_ne_nil]
    exact fun hopening => h.avoids_middle.not_mem (by decide) (List.mem_of_mem_head? hopening)
  have hlast : stage.middle.getLast? ≠ some ']' :=
    fun hclosing => h.avoids_middle.not_mem (by decide) (List.mem_of_mem_getLast? hclosing)
  have hfilters : (stage.filters.map fun filter => filter.text.toList).map Filter.read = stage.filters := by
    rw [List.map_map]
    exact (List.map_congr_left fun filter hfilter => (h.filters filter hfilter).read_text).trans (List.map_id _)
  simp only [read, toList_text, leadingLabels_append hinputs hfirst, trailingLabels_append houtputs hlast,
    h.cutUnquoted_middle, hfilters, map_pad_ofList]

theorem IsClear.semicolon_not_mem_text (h : stage.IsClear) : ';' ∉ stage.text.toList := by
  have hlabels : ∀ pads : List Pad, (∀ pad ∈ pads, Avoids pad.label.toList outerMarks) →
      ';' ∉ (pads.map fun pad => pad.label.toList).flatMap (bracketed '[' ']') := by
    intro pads hpads hmem
    obtain ⟨label, hlabel, hmem⟩ := List.mem_flatMap.mp hmem
    obtain ⟨pad, hpad, rfl⟩ := List.mem_map.mp hlabel
    simp only [bracketed, List.mem_cons, List.mem_append, Char.reduceEq, List.not_mem_nil, or_false, false_or] at hmem
    exact (hpads pad hpad).not_mem (by decide) hmem
  rw [toList_text, List.mem_append, List.mem_append, not_or, not_or]
  exact ⟨hlabels _ h.inputs, h.avoids_middle.not_mem (by decide), hlabels _ h.outputs⟩

end Stage

/-- A graph whose stages are clear is read back from its text. -/
theorem Graph.read_text {graph : Graph Filter} (hgraph : graph ≠ []) (hclear : ∀ stage ∈ graph, stage.IsClear) :
    Graph.read (Graph.text graph) = graph := by
  have htexts : ∀ text ∈ graph.map fun stage => stage.text.toList, ';' ∉ text :=
    List.forall_mem_map.mpr fun stage hstage => (hclear stage hstage).semicolon_not_mem_text
  have htext : (Graph.text graph).toList = [';'].intercalate (graph.map fun stage => stage.text.toList) := by
    rw [Graph.text, String.toList_intercalate, List.map_map]
    rfl
  rw [Graph.read, htext, List.splitOn_intercalate _ htexts (mt List.map_eq_nil_iff.mp hgraph), List.map_map]
  exact (List.map_congr_left fun stage hstage => (hclear stage hstage).read_text).trans (List.map_id _)

end Segue
