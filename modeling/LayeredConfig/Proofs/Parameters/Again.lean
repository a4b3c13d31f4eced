/-
Filling in the same values again.

The second time a name that was generated gets the value alone, because it is not empty any more:
the suffix is lost (`fillLine_fillLine`). All other lines stay, and so does every line from then on
(`fillLine_settleLine`). `settle` is the text that is reached. For a text this holds if it is read
as it was written, so its lines and the values have to be `Clean`.
-/
import Mathlib.Logic.Relation
import LayeredConfig.Proofs.Parameters.Update

namespace LayeredConfig
namespace Parameters

variable {line : List Char} {overrides : Dict String} {d : Deployment}
variable {name current value text s s' : String} {draw draw' : UInt32}
variable {draws draws' : Nat → UInt32}

/-! ## One line -/

/-- The name is generated on the line: there is a value for it, and none in the line. -/
def Generates (overrides : Dict String) (line : List Char) : Prop :=
  (∃ value, overrides.find? generatedName = some value ∧ value ≠ "") ∧
    entry line = (generatedName, "")

instance (overrides : Dict String) (line : List Char) : Decidable (Generates overrides line) :=
  decidable_of_iff ((overrides.find? generatedName).any (· ≠ "") = true ∧
    entry line = (generatedName, "")) (by simp [Generates, Option.any_eq_true])

/-- The line that is reached when values are filled in again. -/
def settleLine (overrides : Dict String) (d : Deployment) (line : List Char) : List Char :=
  match (overrides.find? (entry line).1).filter (· ≠ "") with
  | some value => row (entry line).1 value
  | none => fillLine overrides d 0 line

theorem settleLine_of_override
    (h : (overrides.find? (entry line).1).filter (· ≠ "") = some value) :
    settleLine overrides d line = row (entry line).1 value := by
  simp only [settleLine, h]

/-- A value that is there is replaced by the override alone. -/
theorem fillLine_row_of_override (hname : '=' ∉ name.toList)
    (h : (overrides.find? name).filter (· ≠ "") = some value) (hcurrent : current ≠ "") :
    fillLine overrides d draw (row name current) = row name value := by
  have hentry := entry_row hname current
  have hnew : newValue? overrides d draw (entry (row name current)).1
      (entry (row name current)).2 = some value := by
    rw [hentry, newValue?_of_override h, if_neg fun hgenerate => hcurrent hgenerate.2]
  rw [fillLine_of_some hnew, hentry]

theorem fillLine_of_override (d : Deployment) (draw : UInt32)
    (h : (overrides.find? (entry line).1).filter (· ≠ "") = some value) :
    ∃ current, current ≠ "" ∧
      fillLine overrides d draw line = row (entry line).1 current := by
  have hne := (ne_empty_of_override h).2
  refine ⟨_, ?_, fillLine_of_some (newValue?_of_override h _)⟩
  by_cases hgenerate : (entry line).1 = generatedName ∧ (entry line).2 = ""
  · rw [if_pos hgenerate]
    exact fun hempty => hne (String.append_eq_empty_iff.1 hempty).1
  · rwa [if_neg hgenerate]

/-- Without an override nothing is drawn, and what has been filled in stays. -/
theorem fillLine_of_no_override (d : Deployment) (draw draw' : UInt32)
    (h : (overrides.find? (entry line).1).filter (· ≠ "") = none) :
    fillLine overrides d draw line = fillLine overrides d 0 line ∧
      fillLine overrides d draw' (fillLine overrides d draw line) =
        fillLine overrides d draw line := by
  have hnew (draw : UInt32) := newValue?_of_no_override (d := d) h draw (entry line).2
  cases hvalue : (if (entry line).2 = "" then fallback? d (entry line).1 else none) with
  | none =>
    have hself (draw : UInt32) : fillLine overrides d draw line = line :=
      fillLine_of_none ((hnew draw).trans hvalue)
    simp only [hself, and_self]
  | some value =>
    have hrow (draw : UInt32) : fillLine overrides d draw line = row (entry line).1 value :=
      fillLine_of_some ((hnew draw).trans hvalue)
    have hentry := entry_row (mark_not_mem_name line) value
    refine ⟨by rw [hrow, hrow], ?_⟩
    rw [hrow]
    by_cases hempty : value = ""
    · -- An empty value is filled in once more.
      have hcurrent : (entry line).2 = "" := by
        by_contra hne
        rw [if_neg hne] at hvalue
        exact absurd hvalue nofun
      rw [if_pos hcurrent] at hvalue
      have hnew' : newValue? overrides d draw' (entry (row (entry line).1 value)).1
          (entry (row (entry line).1 value)).2 = some value := by
        rw [hentry, newValue?_of_no_override h, if_pos hempty, hvalue]
      rw [fillLine_of_some hnew', hentry]
    · refine fillLine_of_none ?_
      rw [hentry, newValue?_of_no_override h, if_neg hempty]

theorem fillLine_fillLine (overrides : Dict String) (d : Deployment) (draw draw' : UInt32)
    (line : List Char) :
    fillLine overrides d draw' (fillLine overrides d draw line) = settleLine overrides d line := by
  unfold settleLine
  cases h : (overrides.find? (entry line).1).filter (· ≠ "") with
  | some value =>
    obtain ⟨current, hcurrent, hfill⟩ := fillLine_of_override d draw h
    rw [hfill, fillLine_row_of_override (mark_not_mem_name line) h hcurrent]
  | none =>
    obtain ⟨hdraw, hself⟩ := fillLine_of_no_override d draw draw' h
    rw [hself, hdraw]

theorem fillLine_settleLine (overrides : Dict String) (d : Deployment) (draw : UInt32)
    (line : List Char) :
    fillLine overrides d draw (settleLine overrides d line) = settleLine overrides d line := by
  unfold settleLine
  cases h : (overrides.find? (entry line).1).filter (· ≠ "") with
  | some value =>
    exact fillLine_row_of_override (mark_not_mem_name line) h (ne_empty_of_override h).2
  | none => exact (fillLine_of_no_override d 0 draw h).2

theorem row_inj : row name value = row name current ↔ value = current := by
  simp [row, String.toList_inj]

theorem fillLine_eq_settleLine_iff :
    fillLine overrides d draw line = settleLine overrides d line ↔ ¬ Generates overrides line := by
  unfold settleLine
  cases h : (overrides.find? (entry line).1).filter (· ≠ "") with
  | none =>
    refine iff_of_true (fillLine_of_no_override d draw 0 h).1 ?_
    rintro ⟨⟨value, hvalue, hne⟩, hentry⟩
    have hempty := Option.filter_eq_none_iff.1 h value (by rwa [hentry])
    exact hne (by simpa using hempty)
  | some value =>
    obtain ⟨hvalue, hne⟩ := ne_empty_of_override h
    have hgenerates : Generates overrides line ↔
        (entry line).1 = generatedName ∧ (entry line).2 = "" := by
      constructor
      · rintro ⟨-, hentry⟩
        exact ⟨congrArg (·.1) hentry, congrArg (·.2) hentry⟩
      · rintro ⟨hname, hcurrent⟩
        exact ⟨⟨value, hname ▸ hvalue, hne⟩, Prod.ext hname hcurrent⟩
    have hsuffix : value ++ suffix draw ≠ value := by
      intro heq
      have hlength := congrArg (fun s => s.toList.length) heq
      simp only [String.toList_append, List.length_append, length_suffix] at hlength
      omega
    rw [fillLine_of_some (newValue?_of_override h _), row_inj, hgenerates]
    by_cases hgenerate : (entry line).1 = generatedName ∧ (entry line).2 = ""
    · rw [if_pos hgenerate]
      exact iff_of_false hsuffix (not_not_intro hgenerate)
    · rw [if_neg hgenerate]
      exact iff_of_true rfl hgenerate

/-! ## A text -/

/-- The text that is reached when values are filled in again. -/
def settle (overrides : Dict String) (d : Deployment) (text : String) : String :=
  String.ofList (Text.ended ((Text.lines text.toList).map (settleLine overrides d)))

theorem clean_fillLine (hvalues : ∀ v ∈ offered overrides d, Text.Clean v.toList)
    (hline : Text.Clean line) : Text.Clean (fillLine overrides d draw line) :=
  ⟨lineFeed_not_mem_fillLine (fun v hv => (hvalues v hv).lineFeed) hline.lineFeed,
    noReturn_fillLine (fun v hv => (hvalues v hv).noReturn) hline.noReturn⟩

theorem clean_settleLine (hvalues : ∀ v ∈ offered overrides d, Text.Clean v.toList)
    (hline : Text.Clean line) : Text.Clean (settleLine overrides d line) := by
  rw [← fillLine_fillLine overrides d 0 0 line]
  exact clean_fillLine hvalues (clean_fillLine hvalues hline)

/-- If nothing depends on what is drawn, each line is filled in on its own. -/
theorem filledRows_eq_map {f : List Char → List Char}
    (h : ∀ line ∈ Text.lines text.toList, ∀ draw, fillLine overrides d draw line = f line) :
    filledRows draws overrides d text = (Text.lines text.toList).map f := by
  have hsame : ∀ e ∈ (Text.lines text.toList).zipIdx,
      fillLine overrides d (draws e.2) e.1 = f e.1 := fun e he =>
    h e.1 (List.fst_mem_of_mem_zipIdx he) (draws e.2)
  calc filledRows draws overrides d text
      = (Text.lines text.toList).zipIdx.map fun e => f e.1 := List.map_congr_left hsame
    _ = ((Text.lines text.toList).zipIdx.map Prod.fst).map f := List.map_map.symm
    _ = (Text.lines text.toList).map f := by rw [List.zipIdx_map_fst]

section Clean

variable (hvalues : ∀ v ∈ offered overrides d, Text.Clean v.toList)
variable (htext : ∀ line ∈ Text.lines text.toList, Text.Clean line)
include hvalues htext

theorem lines_fill : Text.lines (fill draws overrides d text).toList =
    filledRows draws overrides d text := by
  rw [toList_fill]
  refine Text.lines_ended_of_clean fun row hrow => ?_
  obtain ⟨line, hline, draw, rfl⟩ := exists_line_of_mem_filledRows hrow
  exact clean_fillLine hvalues (htext line hline)

theorem lines_settle : Text.lines (settle overrides d text).toList =
    (Text.lines text.toList).map (settleLine overrides d) := by
  rw [settle, String.toList_ofList]
  refine Text.lines_ended_of_clean fun row hrow => ?_
  obtain ⟨line, hline, rfl⟩ := List.mem_map.1 hrow
  exact clean_settleLine hvalues (htext line hline)

theorem fill_fill : fill draws' overrides d (fill draws overrides d text) =
    settle overrides d text := by
  have hrows := forall₂_filledRows draws overrides d text
  -- The second draw makes no difference to a line that has been filled in.
  have hagain : filledRows draws' overrides d (fill draws overrides d text) =
      (filledRows draws overrides d text).map (fillLine overrides d 0) := by
    have hlines : Text.lines (fill draws overrides d text).toList =
        filledRows draws overrides d text := lines_fill hvalues htext
    rw [← hlines]
    refine filledRows_eq_map fun row hrow draw' => ?_
    rw [hlines] at hrow
    obtain ⟨line, -, draw, rfl⟩ := exists_line_of_mem_filledRows hrow
    rw [fillLine_fillLine, fillLine_fillLine]
  have hsettled : (filledRows draws overrides d text).map (fillLine overrides d 0) =
      (Text.lines text.toList).map (settleLine overrides d) := by
    rw [← List.forall₂_eq_eq_eq, List.forall₂_map_left_iff, List.forall₂_map_right_iff]
    refine hrows.flip.imp ?_
    rintro row line ⟨draw, rfl⟩
    exact fillLine_fillLine overrides d draw 0 line
  rw [← String.toList_inj, toList_fill, hagain, hsettled, settle, String.toList_ofList]

theorem fill_settle : fill draws overrides d (settle overrides d text) =
    settle overrides d text := by
  have hlines := lines_settle hvalues htext
  have hrows : filledRows draws overrides d (settle overrides d text) =
      (Text.lines (settle overrides d text).toList).map id := by
    refine filledRows_eq_map fun row hrow draw => ?_
    rw [hlines] at hrow
    obtain ⟨line, -, rfl⟩ := List.mem_map.1 hrow
    exact fillLine_settleLine overrides d draw line
  rw [← String.toList_inj, toList_fill, hrows, List.map_id, hlines, settle, String.toList_ofList]

theorem fill_eq_settle_iff : fill draws overrides d text = settle overrides d text ↔
    ∀ line ∈ Text.lines text.toList, ¬ Generates overrides line := by
  constructor
  · intro h line hline
    have hrows := congrArg (fun s => Text.lines s.toList) h
    simp only [lines_fill hvalues htext, lines_settle hvalues htext] at hrows
    obtain ⟨i, hi, rfl⟩ := List.getElem_of_mem hline
    have hi' : i < (filledRows draws overrides d text).length := by
      rw [hrows, List.length_map]
      exact hi
    have hrow := List.getElem_of_eq hrows hi'
    simp only [filledRows, List.getElem_map, List.getElem_zipIdx] at hrow
    exact fillLine_eq_settleLine_iff.1 hrow
  · intro h
    have hrows : filledRows draws overrides d text =
        (Text.lines text.toList).map (settleLine overrides d) :=
      filledRows_eq_map fun line hline draw => fillLine_eq_settleLine_iff.2 (h line hline)
    rw [← String.toList_inj, toList_fill, hrows, settle, String.toList_ofList]

/-- If no name is generated, the first time is the last that anything changes. -/
theorem fill_fill_of_plain (hplain : ∀ line ∈ Text.lines text.toList, ¬ Generates overrides line) :
    fill draws' overrides d (fill draws overrides d text) = fill draws overrides d text := by
  rw [fill_fill hvalues htext, (fill_eq_settle_iff hvalues htext).2 hplain]

end Clean

/-! ## Any number of times -/

/-- The second text is what filling in makes of the first. -/
def Refill (overrides : Dict String) (d : Deployment) (s s' : String) : Prop :=
  ∃ draws, s' = fill draws overrides d s

open Relation (ReflTransGen TransGen)

theorem eq_of_refills (hs : ∀ draws, fill draws overrides d s = s)
    (h : ReflTransGen (Refill overrides d) s s') : s' = s := by
  induction h with
  | refl => rfl
  | tail _ hlast ih =>
    obtain ⟨draws, rfl⟩ := hlast
    rw [ih, hs]

theorem eq_fill_of_refills (hvalues : ∀ v ∈ offered overrides d, Text.Clean v.toList)
    (htext : ∀ line ∈ Text.lines text.toList, Text.Clean line)
    (hplain : ∀ line ∈ Text.lines text.toList, ¬ Generates overrides line)
    (h : TransGen (Refill overrides d) text s') (draws : Nat → UInt32) :
    s' = fill draws overrides d text := by
  obtain ⟨first, ⟨draws', rfl⟩, hrest⟩ := TransGen.head'_iff.1 h
  rw [eq_of_refills (fun _ => fill_fill_of_plain hvalues htext hplain) hrest,
    (fill_eq_settle_iff hvalues htext).2 hplain, (fill_eq_settle_iff hvalues htext).2 hplain]

end Parameters
end LayeredConfig
