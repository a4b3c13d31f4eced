/-
The lines of a parameter file, and what becomes of a line when values are filled in.

A line with a `=` is spelled by its name and its value, so a row with another value is read as it
was meant (`entry_fillLine`), and the text that is written is made of one row for each line
(`toList_fill`, `forall₂_filledRows`). A random suffix is eight digits whatever has been drawn.
-/
import Mathlib.Data.List.Forall2
import LayeredConfig.Parameters.Fill
import LayeredConfig.Proofs.Text.Lines

namespace LayeredConfig
namespace Parameters

variable {line : List Char} {overrides : Dict String} {d : Deployment} {draw : UInt32}
variable {name current value : String}

/-! ## Random suffixes -/

def hexDigits : List Char :=
  ['0', '1', '2', '3', '4', '5', '6', '7', '8', '9', 'a', 'b', 'c', 'd', 'e', 'f']

theorem mem_hexDigits_of_mem_toDigits {n : Nat} {c : Char} (h : c ∈ Nat.toDigits 16 n) :
    c ∈ hexDigits := by
  have hdigit : ∀ m < 16, m.digitChar ∈ hexDigits := by decide
  induction n using Nat.strongRecOn with
  | ind n ih =>
    rw [Nat.toDigits_eq_if (by decide)] at h
    by_cases hn : n < 16
    · rw [if_pos hn, List.mem_singleton] at h
      rw [h]
      exact hdigit n hn
    · rw [if_neg hn, List.mem_append, List.mem_singleton] at h
      rcases h with h | rfl
      · exact ih (n / 16) (by omega) h
      · exact hdigit (n % 16) (Nat.mod_lt n (by decide))

theorem mem_hexDigits_of_mem_suffix {c : Char} (h : c ∈ (suffix draw).toList) :
    c ∈ hexDigits := by
  simp only [suffix, String.toList_ofList, List.mem_append] at h
  rcases h with h | h
  · rw [List.eq_of_mem_replicate h]
    decide
  · exact mem_hexDigits_of_mem_toDigits h

theorem length_suffix (draw : UInt32) : (suffix draw).toList.length = 8 := by
  have hle : (Nat.toDigits 16 draw.toNat).length ≤ 8 :=
    (Nat.length_toDigits_le_iff (by decide) (by decide)).2 draw.toNat_lt
  simp only [suffix, String.toList_ofList, List.length_append, List.length_replicate]
  omega

/-! ## Entries -/

/-- The names and values of the lines of a text. -/
def entries (text : String) : List (String × String) := (Text.lines text.toList).map entry

theorem entry_append {key : List Char} (h : '=' ∉ key) (rest : List Char) :
    entry (key ++ '=' :: rest) = (String.ofList key, String.ofList rest) := by
  rw [entry, Text.cut_append h]
  rfl

theorem entry_of_not_mem (h : '=' ∉ line) : entry line = (String.ofList line, "") := by
  rw [entry, Text.cut_of_not_mem h]
  rfl

/-- A line is its name, or its name, a `=` and its value. -/
theorem line_cases (line : List Char) :
    ('=' ∉ line ∧ line = (entry line).1.toList ∧ (entry line).2 = "") ∨
      '=' ∈ line ∧ line = (entry line).1.toList ++ '=' :: (entry line).2.toList := by
  by_cases h : '=' ∈ line
  · obtain ⟨key, rest, hline, hkey⟩ := List.eq_append_cons_of_mem h
    refine .inr ⟨h, ?_⟩
    rw [hline, entry_append hkey, String.toList_ofList, String.toList_ofList]
  · refine .inl ⟨h, ?_, ?_⟩
    · rw [entry_of_not_mem h, String.toList_ofList]
    · rw [entry_of_not_mem h]

theorem mark_not_mem_name (line : List Char) : '=' ∉ (entry line).1.toList := by
  by_cases h : '=' ∈ line
  · obtain ⟨key, rest, rfl, hkey⟩ := List.eq_append_cons_of_mem h
    rwa [entry_append hkey, String.toList_ofList]
  · rwa [entry_of_not_mem h, String.toList_ofList]

theorem mem_of_mem_name {c : Char} (h : c ∈ (entry line).1.toList) : c ∈ line := by
  rcases line_cases line with ⟨-, hline, -⟩ | ⟨-, hline⟩
  · rwa [hline]
  · rw [hline]
    exact List.mem_append_left _ h

/-- The row with a value under a name. -/
def row (name value : String) : List Char := name.toList ++ '=' :: value.toList

theorem entry_row (h : '=' ∉ name.toList) (value : String) :
    entry (row name value) = (name, value) := by
  rw [row, entry_append h, String.ofList_toList, String.ofList_toList]

/-! ## Filling in -/

theorem fillLine_of_some
    (h : newValue? overrides d draw (entry line).1 (entry line).2 = some value) :
    fillLine overrides d draw line = row (entry line).1 value := by
  simp only [fillLine, h]
  rfl

theorem fillLine_of_none (h : newValue? overrides d draw (entry line).1 (entry line).2 = none) :
    fillLine overrides d draw line = line := by
  simp only [fillLine, h]

theorem newValue?_of_override (h : (overrides.find? name).filter (· ≠ "") = some value)
    (current : String) : newValue? overrides d draw name current =
      some (if name = generatedName ∧ current = "" then value ++ suffix draw else value) := by
  simp only [newValue?, h]

theorem newValue?_of_no_override (h : (overrides.find? name).filter (· ≠ "") = none)
    (draw : UInt32) (current : String) : newValue? overrides d draw name current =
      if current = "" then fallback? d name else none := by
  simp only [newValue?, h]

theorem ne_empty_of_override (h : (overrides.find? name).filter (· ≠ "") = some value) :
    overrides.find? name = some value ∧ value ≠ "" := by
  obtain ⟨hvalue, hne⟩ := Option.filter_eq_some_iff.1 h
  exact ⟨hvalue, by simpa using hne⟩

/-- The value that is there once values have been filled in. -/
def filledValue (overrides : Dict String) (d : Deployment) (draw : UInt32) (name current : String) :
    String :=
  (newValue? overrides d draw name current).getD current

theorem entry_fillLine (overrides : Dict String) (d : Deployment) (draw : UInt32)
    (line : List Char) :
    entry (fillLine overrides d draw line) =
      ((entry line).1, filledValue overrides d draw (entry line).1 (entry line).2) := by
  rw [filledValue]
  cases h : newValue? overrides d draw (entry line).1 (entry line).2 with
  | some value => rw [fillLine_of_some h, entry_row (mark_not_mem_name line), Option.getD_some]
  | none => rw [fillLine_of_none h, Option.getD_none]

/-- A line with a `=` keeps its spelling if it keeps its value. -/
theorem fillLine_eq_self (h : '=' ∈ line)
    (hvalue : filledValue overrides d draw (entry line).1 (entry line).2 = (entry line).2) :
    fillLine overrides d draw line = line := by
  rcases line_cases line with ⟨hno, -⟩ | ⟨-, hline⟩
  · exact absurd h hno
  · rw [filledValue] at hvalue
    cases hnew : newValue? overrides d draw (entry line).1 (entry line).2 with
    | some value =>
      rw [hnew, Option.getD_some] at hvalue
      rw [fillLine_of_some hnew, hvalue]
      exact hline.symm
    | none => exact fillLine_of_none hnew

/-- One row for each line of the text. -/
def filledRows (draws : Nat → UInt32) (overrides : Dict String) (d : Deployment) (text : String) :
    List (List Char) :=
  (Text.lines text.toList).zipIdx.map fun (line, i) => fillLine overrides d (draws i) line

theorem toList_fill (draws : Nat → UInt32) (overrides : Dict String) (d : Deployment)
    (text : String) :
    (fill draws overrides d text).toList = Text.ended (filledRows draws overrides d text) := by
  rw [fill, String.toList_ofList, Text.ended, filledRows, List.flatMap_map]

theorem forall₂_filledRows (draws : Nat → UInt32) (overrides : Dict String) (d : Deployment)
    (text : String) :
    List.Forall₂ (fun line row => ∃ draw, row = fillLine overrides d draw line)
      (Text.lines text.toList) (filledRows draws overrides d text) := by
  rw [filledRows]
  conv => arg 2; rw [← List.zipIdx_map_fst 0 (Text.lines text.toList)]
  rw [List.forall₂_map_left_iff, List.forall₂_map_right_iff]
  exact List.forall₂_same.2 fun e _ => ⟨draws e.2, rfl⟩

end Parameters
end LayeredConfig
