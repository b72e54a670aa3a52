import Segue.Proofs.Graph.Reading
import Segue.Proofs.Mixing.Stages

/-!
The text of a mix. Main statement: the graph of a plan is read back from the text that the engine is
given.
-/

namespace Segue

open Segue.Graph (marks quotedMarks outerMarks)

theorem avoids_toDigits (n : Nat) : Avoids (Nat.toDigits 10 n) marks := by
  intro c hc hmem
  have hdigit := isDigit_of_mem_toDigits_ten hc
  have hmarks : ∀ mark ∈ marks, mark.isDigit = false := by simp [marks]
  rw [hmarks c hmem] at hdigit
  cases hdigit

theorem avoids_toString (n : Nat) : Avoids (toString n).toList marks := by
  rw [toList_toString]
  exact avoids_toDigits n

theorem Avoids.appendText {first second : String} {marks : List Char} (hfirst : Avoids first.toList marks)
    (hsecond : Avoids second.toList marks) : Avoids (first ++ second).toList marks := by
  rw [String.toList_append]
  exact hfirst.append hsecond

theorem avoids_replicate_zero (count : Nat) : Avoids (List.replicate count '0') marks := by
  intro c hc
  rw [List.eq_of_mem_replicate hc]
  decide

namespace Numeral

theorem avoids_padZeros (width : Nat) {digits : String} (hdigits : Avoids digits.toList marks) :
    Avoids (padZeros width digits).toList marks := by
  refine Avoids.appendText ?_ hdigits
  rw [String.toList_ofList]
  exact avoids_replicate_zero _

theorem avoids_unitsText (places units : Nat) : Avoids (unitsText places units).toList marks := by
  rw [unitsText]
  split
  · exact avoids_toString _
  · exact ((avoids_toString _).appendText (by decide)).appendText (avoids_padZeros _ (avoids_toString _))

/-- No mark stands in a number with fixed places. -/
theorem avoids_fixed (places : Nat) (x : Float) : Avoids (fixed places x).toList marks := by
  have hsign : ∀ parts, Avoids (FixedStyle.sign { places } parts).toList marks := by
    have hminus : ∀ negative, Avoids (minusSign negative).toList marks := by decide
    rintro (_ | negative | ⟨negative, _, _⟩)
    · exact nofun
    · exact hminus negative
    · exact hminus negative
  have hbody : ∀ parts, Avoids (FixedStyle.body { places } parts).toList marks := by
    have hwords : Avoids "NaN".toList marks ∧ Avoids "inf".toList marks := by decide
    rintro (_ | _ | _)
    · exact hwords.1
    · exact hwords.2
    · exact avoids_unitsText _ _
  exact (hsign _).appendText (avoids_padZeros _ (hbody _))

theorem avoids_positional {keepsPoint : Bool} {digits : String} (exponent : Int)
    (hdigits : Avoids digits.toList marks) : Avoids (positional keepsPoint digits exponent).toList marks := by
  have hzeros : ∀ count, Avoids (zeros count).toList marks := by
    intro count
    rw [zeros, String.toList_ofList]
    exact avoids_replicate_zero count
  rw [positional]
  split
  · refine (hdigits.appendText (hzeros _)).appendText ?_
    cases keepsPoint <;> decide
  · extract_lets places
    split
    · refine (Avoids.appendText ?_ (by decide)).appendText ?_
      · rw [String.toList_ofList]
        exact fun c hc => hdigits c (List.mem_of_mem_take hc)
      · rw [String.toList_ofList]
        exact fun c hc => hdigits c (List.mem_of_mem_drop hc)
    · exact (Avoids.appendText (by decide) (hzeros _)).appendText hdigits

/-- No mark stands in a number that is written out. -/
theorem avoids_plain (x : Float) : Avoids (plain x).toList marks := by
  have hminus : ∀ negative, Avoids (minusSign negative).toList marks := by decide
  rw [plain, Layout.write]
  split
  · decide
  · exact (hminus _).appendText (by decide)
  · refine (hminus _).appendText ?_
    rw [Layout.size]
    split
    · exact avoids_positional _ (by decide)
    · exact avoids_positional _ (avoids_toString _)

end Numeral

namespace Envelope

theorem avoids_number (x : Float) : Avoids (number x).toList marks := Numeral.avoids_fixed 6 x

/-- An expression contains commas and brackets, but no mark that quotes do not shield. -/
theorem Expr.avoids_text (expr : Expr Float) : Avoids expr.text.toList quotedMarks := by
  have hnumber : ∀ x, Avoids (number x).toList quotedMarks := fun x => (avoids_number x).mono (by decide)
  induction expr with
  | constant value => exact hnumber value
  | line value growth time span =>
      exact ((((((hnumber _).appendText (by decide)).appendText (hnumber _)).appendText (by decide)).appendText
        (hnumber _)).appendText (by decide)).appendText (hnumber _)
  | «until» bound before after hbefore hafter =>
      exact ((((((Avoids.appendText (by decide) (hnumber _)).appendText (by decide)).appendText hbefore).appendText
        (by decide)).appendText hafter).appendText (by decide))

end Envelope

namespace FilterOption

variable {key value : String}

theorem isClear_keyed (hkey : Avoids key.toList marks) (hvalue : Avoids value.toList marks) :
    (Filter.keyed key value).IsClear where
  key := by
    rintro _ ⟨⟩
    exact hkey
  value := .inl hvalue

theorem isClear_positional (hvalue : Avoids value.toList marks) : (Filter.positional value).IsClear where
  key := nofun
  value := .inl hvalue

theorem isClear_quoted (hkey : Avoids key.toList marks) (hvalue : Avoids value.toList quotedMarks) :
    (Filter.keyed key ("'" ++ value ++ "'")).IsClear where
  key := by
    rintro _ ⟨⟩
    exact hkey
  value := .inr ⟨rfl, value, rfl, hvalue⟩

end FilterOption

theorem Filter.isClear_mk {name : String} {options : List FilterOption}
    (hname : name ≠ "" ∧ Avoids name.toList marks) (hoptions : options.Forall FilterOption.IsClear) :
    (Filter.mk name options).IsClear where
  nonempty := hname.1
  name := hname.2
  options := List.forall_iff_forall_mem.mp hoptions

namespace Effect

open Segue.FilterOption (isClear_keyed isClear_positional isClear_quoted)
open Segue.Filter (isClear_mk)

/-- No effect has a filter with a mark in its name, its keys or its values, but for commas in quotes. -/
theorem isClear_filter (effect : Effect Float) : effect.filter.IsClear := by
  have hnumber : ∀ x : Float, Avoids (Envelope.number x).toList marks := Envelope.avoids_number
  have hplain : ∀ {key : String} (x : Float), Avoids key.toList marks →
      (Filter.keyed key (Numeral.plain x)).IsClear := fun x hkey => isClear_keyed hkey (Numeral.avoids_plain x)
  have hcurve : ∀ curve : Curve, Avoids curve.engineName.toList marks := by
    rintro (_ | _ | _ | _) <;> decide
  cases effect with
  | silence =>
      exact isClear_mk (by decide) ⟨isClear_keyed (by decide) (by decide), isClear_keyed (by decide) (by decide)⟩
  | part start stop =>
      cases stop with
      | none => exact isClear_mk (by decide) (isClear_keyed (by decide) (hnumber start))
      | some stop =>
          exact isClear_mk (by decide)
            ⟨isClear_keyed (by decide) (hnumber start), isClear_keyed (by decide) (hnumber stop)⟩
  | limit stop => exact isClear_mk (by decide) (isClear_keyed (by decide) (hnumber stop))
  | restartClock => exact isClear_mk (by decide) (isClear_positional (by decide))
  | split count => exact isClear_mk (by decide) (isClear_positional (avoids_toString count))
  | append count =>
      exact isClear_mk (by decide) ⟨isClear_keyed (by decide) (avoids_toString count),
        isClear_keyed (by decide) (by decide), isClear_keyed (by decide) (by decide)⟩
  | stretch rate => exact isClear_mk (by decide) (isClear_positional (hnumber rate))
  | amplify factor => exact isClear_mk (by decide) (isClear_positional (hnumber factor))
  | automate gain =>
      exact isClear_mk (by decide)
        ⟨isClear_quoted (by decide) gain.avoids_text, isClear_keyed (by decide) (by decide)⟩
  | normalize targets measured =>
      exact isClear_mk (by decide) ⟨hplain _ (by decide), hplain _ (by decide), hplain _ (by decide),
        hplain _ (by decide), hplain _ (by decide), hplain _ (by decide), hplain _ (by decide),
        isClear_keyed (by decide) (by decide)⟩
  | pass => exact isClear_mk (by decide) trivial
  | crossfade duration curve =>
      exact isClear_mk (by decide) ⟨isClear_keyed (by decide) (hnumber duration),
        isClear_keyed (by decide) (hcurve curve), isClear_keyed (by decide) (hcurve curve)⟩

end Effect

theorem avoids_outer_toDigits (n : Nat) : Avoids (Nat.toDigits 10 n) outerMarks :=
  (avoids_toDigits n).mono (by decide)

theorem Part.avoids_name (part : Part) : Avoids part.name.toList outerMarks := by
  have htag : ∀ purpose : Chain.Purpose, Avoids purpose.tag.toList outerMarks := by
    rintro (_ | _) <;> decide
  have hpiece : ∀ piece : Nat, Avoids (toString piece).toList outerMarks :=
    fun piece => (avoids_toString piece).mono (by decide)
  rcases part with _ | _ | _ | ⟨purpose, piece⟩ | ⟨purpose, piece⟩
  · decide
  · decide
  · decide
  · exact ((htag purpose).appendText (by decide)).appendText (hpiece piece)
  · exact ((htag purpose).appendText (by decide)).appendText (hpiece piece)

theorem Link.avoids_label (link : Link) : Avoids link.pad.label.toList outerMarks := by
  rw [toList_label]
  cases link with
  | inside track part =>
      exact Avoids.cons (by decide)
        ((avoids_outer_toDigits track).append (Avoids.cons (by decide) part.avoids_name))
  | chain track => exact Avoids.cons (by decide) (avoids_outer_toDigits track)
  | fold number => exact Avoids.cons (by decide) (avoids_outer_toDigits number)
  | final => decide

theorem Pad.IsRead.avoids_label {pad : Pad} (h : pad.IsRead) : Avoids pad.label.toList outerMarks := by
  rcases h with ⟨index, rfl⟩ | ⟨link, rfl⟩
  · exact ((avoids_toString index).mono (by decide)).appendText (by decide)
  · exact link.avoids_label

theorem Stage.Fits.isClear {stage : Stage (Effect Float)} (h : stage.Fits) (hfilters : stage.filters ≠ []) :
    (stage.map Effect.filter).IsClear where
  nonempty := mt List.map_eq_nil_iff.mp hfilters
  filters := List.forall_mem_map.mpr fun effect _ => effect.isClear_filter
  inputs pad hpad := (h.reads pad hpad).avoids_label
  outputs pad hpad := by
    obtain ⟨link, rfl⟩ := h.gives pad hpad
    exact link.avoids_label

/-- The text of a planned graph falls into its stages. -/
theorem Mix.read_of_plan {mix : Mix Float} {settings : ExportSettings} {output : Path} {plan : RenderPlan}
    (hplan : mix.plan settings output = .ok plan) :
    Graph.read plan.graph.text = Graph.filters plan.graph.stages := by
  have hgraph := (Mix.ofChains_of_plan hplan).1
  rw [Project.chains_eq] at hgraph
  have houtput := MixGraph.output_of_ofChains hgraph
  have hstages : Graph.filters plan.graph.stages ≠ [] := mt List.map_eq_nil_iff.mp (Graph.ne_nil_of_output houtput)
  refine Graph.read_text hstages (List.forall_mem_map.mpr fun stage hstage => ?_)
  exact (MixGraph.fits_of_ofChains hgraph stage hstage).isClear ((Graph.output_eq_ok houtput).1 stage hstage)

/-- The engine is given a text from which the graph of a plan is read back: cut at its semicolons,
brackets, commas outside quotes, equals signs and colons, it falls into the stages with their
labels, filters and options. -/
theorem Mix.read_text_of_plan {mix : Mix Float} {settings : ExportSettings} {output : Path} {plan : RenderPlan}
    (hplan : mix.plan settings output = .ok plan) :
    ["-filter_complex", plan.graph.text] <:+: plan.arguments ∧
      Graph.read plan.graph.text = Graph.filters plan.graph.stages :=
  ⟨Mix.given_of_plan hplan, Mix.read_of_plan hplan⟩

theorem Mix.read_text_of_plan_twoTracks :
    ∃ plan, Mix.twoTracks.plan { normalize := true } ⟨"/music/night.flac"⟩ = .ok plan ∧
      ["-filter_complex", plan.graph.text] <:+: plan.arguments ∧
      Graph.read plan.graph.text = Graph.filters plan.graph.stages := by
  obtain ⟨plan, hplan⟩ := Mix.exists_plan_twoTracks ⟨"/music/night.flac"⟩
  exact ⟨plan, hplan, Mix.read_text_of_plan hplan⟩

end Segue
