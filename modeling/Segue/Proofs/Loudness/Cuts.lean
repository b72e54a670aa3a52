import Segue.Proofs.Loudness.Blocks
import Segue.Proofs.Text.Decoding

/-!
The last block of bytes that are decoded in pieces. Main statement: a block of ASCII is found as it
is, and none where there is none, however the bytes have been cut.
-/

namespace Segue.Block

open Text

/-- The last outermost block of bytes, each of them taken as the character of its number. -/
def ofBytes? (bytes : List UInt8) : Option (List Char) := last? (latin bytes)

theorem isPlain_of_not_isAscii {c : Char} (h : ¬ IsAscii c) : IsPlain c := by
  refine ⟨?_, ?_, ?_⟩
  all_goals
    rintro rfl
    exact h (by decide)

theorem ne_escape_of_not_isAscii {c : Char} (h : ¬ IsAscii c) : c ≠ '\\' := by
  rintro rfl
  exact h (by decide)

namespace Scan

/-- The scan behind some characters that are not ASCII. -/
def past (scan : Scan) (run : List Char) : Scan :=
  { scan with
    escaped := scan.escaped && !scan.inString
    current := if scan.inString ∨ scan.depth ≠ 0 then run.reverse ++ scan.current else scan.current }

theorem step_past (scan : Scan) {c : Char} (hc : ¬ IsAscii c) : scan.step c = scan.past [c] := by
  obtain ⟨hopen, hclose, hquote⟩ := isPlain_of_not_isAscii hc
  have hescape : c ≠ '\\' := ne_escape_of_not_isAscii hc
  obtain ⟨depth, inString, isEscaped, current, last⟩ := scan
  cases inString with
  | true => cases isEscaped <;> simp [step, past, hescape, hquote]
  | false =>
      by_cases hdepth : depth = 0
      · subst hdepth
        simp [step, past, hopen]
      · simp [step, past, hopen, hclose, hquote, hdepth]

theorem past_past (scan : Scan) (run run' : List Char) : (scan.past run).past run' = scan.past (run ++ run') := by
  obtain ⟨depth, inString, isEscaped, current, last⟩ := scan
  cases inString with
  | true => simp [past]
  | false => by_cases hdepth : depth = 0 <;> simp [past, hdepth]

theorem run_past {run : List Char} (hrun : run ≠ []) (hothers : ∀ c ∈ run, ¬ IsAscii c) (scan : Scan) :
    run.foldl step scan = scan.past run := by
  obtain ⟨c, run, rfl⟩ := List.exists_cons_of_ne_nil hrun
  rw [List.foldl_cons, step_past scan (hothers c List.mem_cons_self)]
  clear hrun
  induction run generalizing c scan with
  | nil => rfl
  | cons d run ih =>
      have hrest : ∀ e ∈ d :: run, ¬ IsAscii e := fun e he => hothers e (List.mem_cons_of_mem c he)
      rw [List.foldl_cons, step_past _ (hrest d List.mem_cons_self), ih _ d hrest, past_past, List.singleton_append]

/-- Two scans that stand alike, and have seen blocks that agree but for characters that are not
ASCII. -/
structure Alike (scan scan' : Scan) : Prop where
  depth : scan.depth = scan'.depth
  inString : scan.inString = scan'.inString
  escaped : scan.escaped = scan'.escaped
  current : SameAscii scan.current.reverse scan'.current.reverse
  last : Option.Rel SameAscii scan.last scan'.last

theorem alike_empty : Alike {} {} := ⟨rfl, rfl, rfl, .nil, .none⟩

theorem Alike.step {scan scan' : Scan} (h : Alike scan scan') (c : Char) : Alike (scan.step c) (scan'.step c) := by
  obtain ⟨depth, inString, isEscaped, current, last⟩ := scan
  obtain ⟨depth', inString', isEscaped', current', last'⟩ := scan'
  obtain ⟨rfl, rfl, rfl, hcurrent, hlast⟩ := h
  dsimp only at *
  have hcons : SameAscii (c :: current).reverse (c :: current').reverse := by
    rw [List.reverse_cons, List.reverse_cons]
    exact hcurrent.append (.same c .nil)
  unfold Scan.step
  dsimp only
  -- both scans take the same branch, since they stand alike
  split
  · split
    · exact ⟨rfl, rfl, rfl, hcons, hlast⟩
    split
    · exact ⟨rfl, rfl, rfl, hcons, hlast⟩
    split
    · exact ⟨rfl, rfl, rfl, hcons, hlast⟩
    · exact ⟨rfl, rfl, rfl, hcons, hlast⟩
  split
  · refine ⟨rfl, rfl, rfl, ?_, hlast⟩
    dsimp only
    split
    · exact .same c .nil
    · exact hcons
  split
  · exact ⟨rfl, rfl, rfl, hcurrent, hlast⟩
  split
  · split
    · exact ⟨rfl, rfl, rfl, .nil, .some hcons⟩
    · exact ⟨rfl, rfl, rfl, hcons, hlast⟩
  · exact ⟨rfl, rfl, rfl, hcons, hlast⟩

theorem Alike.past {scan scan' : Scan} (h : Alike scan scan') {run run' : List Char} (hrun : run ≠ [])
    (hrun' : run' ≠ []) (hothers : ∀ c ∈ run, ¬ IsAscii c) (hothers' : ∀ c ∈ run', ¬ IsAscii c) :
    Alike (scan.past run) (scan'.past run') where
  depth := h.depth
  inString := h.inString
  escaped := by rw [Scan.past, Scan.past, h.escaped, h.inString]
  current := by
    rw [Scan.past, Scan.past, h.depth, h.inString]
    dsimp only
    split
    · have hruns : SameAscii (run ++ []) (run' ++ []) := .others hrun hrun' hothers hothers' .nil
      rw [List.append_nil, List.append_nil] at hruns
      rw [List.reverse_append, List.reverse_append, List.reverse_reverse, List.reverse_reverse]
      exact h.current.append hruns
    · exact h.current
  last := h.last

/-- Over texts that agree but for characters that are not ASCII, scans stay alike. -/
theorem Alike.run {text text' : List Char} (htext : SameAscii text text') {scan scan' : Scan} (h : Alike scan scan') :
    Alike (text.foldl Scan.step scan) (text'.foldl Scan.step scan') := by
  induction htext generalizing scan scan' with
  | nil => exact h
  | same c _ ih => exact ih (h.step c)
  | others hrun hrun' hothers hothers' _ ih =>
      rw [List.foldl_append, List.foldl_append, run_past hrun hothers, run_past hrun' hothers']
      exact ih (h.past hrun hrun' hothers hothers')

end Scan

theorem last?_of_sameAscii {text text' : List Char} (h : SameAscii text text') :
    Option.Rel SameAscii (last? text) (last? text') :=
  (Scan.alike_empty.run h).last

/-- A last block of ASCII is found as it is, and none where there is none. -/
theorem last?_pieces {pieces : List (List UInt8)}
    (hascii : ∀ block ∈ ofBytes? pieces.flatten, ∀ c ∈ block, IsAscii c) :
    last? (pieces.flatMap decodeLossy) = ofBytes? pieces.flatten := by
  have hblocks := last?_of_sameAscii (sameAscii_pieces pieces)
  rw [ofBytes?] at hascii ⊢
  generalize last? (latin pieces.flatten) = block at hascii hblocks
  generalize last? (pieces.flatMap decodeLossy) = block' at hblocks
  cases hblocks with
  | none => rfl
  | some hblock => rw [hblock.eq_of_ascii (hascii _ rfl)]

end Segue.Block
