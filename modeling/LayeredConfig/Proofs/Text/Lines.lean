/-
How a text is read that has been written line by line.

Rows without a line feed, each ended by one, are read as they were written, except that a carriage
return at the end of a row is taken for a part of the line break (`lines_ended`). What comes after
them is read on its own, so a text can be read in parts (`lines_append`).
-/
import LayeredConfig.Text.Lines

namespace LayeredConfig
namespace Text

/-! ## Cutting a line -/

theorem cut_append {mark : Char} {key : List Char} (h : mark ∉ key) (rest : List Char) :
    cut mark (key ++ mark :: rest) = (key, some rest) := by
  induction key with
  | nil => simp [cut]
  | cons c key ih =>
    rw [List.mem_cons, not_or] at h
    have hc : ¬ c = mark := fun e => h.1 e.symm
    rw [List.cons_append, cut, if_neg hc, ih h.2]

/-! ## Rows that are ended -/

/-- Rows of characters, each ended by a line feed. -/
def ended (rows : List (List Char)) : List Char := rows.flatMap (· ++ ['\n'])

variable {s row : List Char} {rows : List (List Char)}

theorem ended_cons (row : List Char) (rows : List (List Char)) :
    ended (row :: rows) = row ++ '\n' :: ended rows := by
  simp [ended]

/-- No row goes over a line feed. -/
theorem lineFeed_not_mem_endedLines (s : List Char) :
    (∀ row ∈ (endedLines s).1, '\n' ∉ row) ∧ '\n' ∉ (endedLines s).2 := by
  induction s with
  | nil => simp [endedLines]
  | cons c rest ih =>
    rcases h : endedLines rest with ⟨ls, last⟩
    rw [h] at ih
    obtain ⟨hls, hlast⟩ := ih
    by_cases hc : c = '\n'
    · simpa [endedLines, h, hc] using ⟨hls, hlast⟩
    · cases ls with
      | nil => simpa [endedLines, h, hc, Ne.symm hc] using hlast
      | cons line ls =>
        rw [List.forall_mem_cons] at hls
        simpa [endedLines, h, hc, Ne.symm hc] using ⟨hls, hlast⟩

/-- Every text is made of rows that are ended and a last one that is not. -/
theorem exists_rows (s : List Char) :
    ∃ rows last, s = ended rows ++ last ∧ (∀ row ∈ rows, '\n' ∉ row) ∧ '\n' ∉ last := by
  obtain ⟨hrows, hlast⟩ := lineFeed_not_mem_endedLines s
  exact ⟨_, _, (join_endedLines s).symm, hrows, hlast⟩

/-! ## Reading -/

theorem endedLines_row (h : '\n' ∉ row) (rest : List Char) :
    endedLines (row ++ '\n' :: rest) = (row :: (endedLines rest).1, (endedLines rest).2) := by
  induction row with
  | nil => simp [endedLines]
  | cons c row ih =>
    rw [List.mem_cons, not_or] at h
    rw [List.cons_append, endedLines, ih h.2]
    simp [Ne.symm h.1]

theorem lines_row (h : '\n' ∉ row) (rest : List Char) :
    lines (row ++ '\n' :: rest) = dropReturn row :: lines rest := by
  simp [lines, endedLines_row h]

theorem lines_ended (h : ∀ row ∈ rows, '\n' ∉ row) (rest : List Char) :
    lines (ended rows ++ rest) = rows.map dropReturn ++ lines rest := by
  induction rows with
  | nil => rfl
  | cons row rows ih =>
    obtain ⟨hrow, hrows⟩ := List.forall_mem_cons.1 h
    rw [ended_cons, List.append_assoc, List.cons_append, lines_row hrow, ih hrows]
    rfl

/-- What comes after a line feed is read on its own. -/
theorem lines_append (s rest : List Char) :
    lines (s ++ '\n' :: rest) = lines (s ++ ['\n']) ++ lines rest := by
  obtain ⟨rows, last, rfl, hrows, hlast⟩ := exists_rows s
  have hread (rest : List Char) : lines (ended rows ++ last ++ '\n' :: rest) =
      rows.map dropReturn ++ dropReturn last :: lines rest := by
    rw [List.append_assoc, lines_ended hrows, lines_row hlast]
  rw [hread, hread]
  simp [lines, endedLines]

theorem lines_flatMap {α : Type} (f : α → List Char) (l : List α) :
    lines (l.flatMap fun a => f a ++ ['\n']) = l.flatMap fun a => lines (f a ++ ['\n']) := by
  induction l with
  | nil => rfl
  | cons a l ih =>
    rw [List.flatMap_cons, List.flatMap_cons, List.append_assoc, List.singleton_append,
      lines_append, ih]

theorem dropReturn_sublist (row : List Char) : (dropReturn row).Sublist row := by
  unfold dropReturn
  split
  · exact List.dropLast_sublist row
  · exact .refl row

theorem dropReturn_eq_self (h : row.getLast? ≠ some '\r') : dropReturn row = row := if_neg h

theorem dropReturn_concat (row : List Char) : dropReturn (row ++ ['\r']) = row := by
  simp [dropReturn]

theorem dropReturn_append_cons {c : Char} (hc : c ≠ '\r') (key rest : List Char) :
    dropReturn (key ++ c :: rest) = key ++ c :: dropReturn rest := by
  have hlast : (key ++ c :: rest).getLast? = some '\r' ↔ rest.getLast? = some '\r' := by
    rw [List.getLast?_append, List.getLast?_cons]
    cases rest.getLast? <;> simp [hc]
  unfold dropReturn
  by_cases h : rest.getLast? = some '\r'
  · have hne : rest ≠ [] := by
      rintro rfl
      exact absurd h nofun
    rw [if_pos h, if_pos (hlast.2 h), List.dropLast_append_cons, List.dropLast_cons_of_ne_nil hne]
  · rw [if_neg h, if_neg (mt hlast.1 h)]

/-- After a key, the first line of a text is the end of the key's line, and its further lines are
read as they are without the key. -/
theorem exists_lines_append (mark : Char) {key : List Char} (hkey : '\n' ∉ key)
    (hfeed : mark ≠ '\n') (hreturn : mark ≠ '\r') (rest : List Char) :
    ∃ first, lines (key ++ mark :: rest ++ ['\n']) =
      (key ++ mark :: first) :: (lines (rest ++ ['\n'])).tail := by
  obtain ⟨first, more, hrest, hfirst⟩ :=
    List.eq_append_cons_of_mem (List.mem_append_right rest (List.mem_singleton_self '\n'))
  have hrow : '\n' ∉ key ++ mark :: first := by
    simp [hkey, hfeed.symm, hfirst]
  refine ⟨dropReturn first, ?_⟩
  rw [List.append_assoc, List.cons_append, hrest, lines_row hfirst, List.tail_cons,
    ← List.cons_append, ← List.append_assoc, lines_row hrow, dropReturn_append_cons hreturn]

/-- A line is a row of the text, perhaps less its last character. -/
theorem exists_sublist_of_mem_lines (h : row ∈ lines s) :
    ∃ long, (long ∈ (endedLines s).1 ∨ long = (endedLines s).2) ∧ row.Sublist long := by
  rw [lines, List.mem_append, List.mem_map] at h
  rcases h with ⟨long, hlong, rfl⟩ | h
  · exact ⟨long, .inl hlong, dropReturn_sublist long⟩
  · cases hempty : (endedLines s).2.isEmpty with
    | true => simp [hempty] at h
    | false =>
      simp only [hempty, Bool.false_eq_true, if_false, List.mem_singleton] at h
      exact ⟨row, .inr h, .refl row⟩

theorem lineFeed_not_mem_of_mem_lines (h : row ∈ lines s) : '\n' ∉ row := by
  obtain ⟨hrows, hlast⟩ := lineFeed_not_mem_endedLines s
  obtain ⟨long, hlong | rfl, hsub⟩ := exists_sublist_of_mem_lines h
  · exact fun hmem => hrows long hlong (hsub.subset hmem)
  · exact fun hmem => hlast (hsub.subset hmem)

theorem mem_of_mem_lines (h : row ∈ lines s) {c : Char} (hc : c ∈ row) : c ∈ s := by
  obtain ⟨long, hlong, hsub⟩ := exists_sublist_of_mem_lines h
  rw [← join_endedLines s, List.mem_append, List.mem_flatMap]
  rcases hlong with hlong | rfl
  · exact .inl ⟨long, hlong, List.mem_append_left _ (hsub.subset hc)⟩
  · exact .inr (hsub.subset hc)

/-! ## Rows that are read as they stand -/

/-- The row is one line, and its end is not mistaken for a part of the line break. -/
structure Clean (row : List Char) : Prop where
  lineFeed : '\n' ∉ row
  noReturn : row.getLast? ≠ some '\r'

instance (row : List Char) : Decidable (Clean row) :=
  decidable_of_iff ('\n' ∉ row ∧ row.getLast? ≠ some '\r')
    ⟨fun h => ⟨h.1, h.2⟩, fun h => ⟨h.lineFeed, h.noReturn⟩⟩

theorem lines_ended_of_clean (h : ∀ row ∈ rows, Clean row) : lines (ended rows) = rows := by
  have hread := lines_ended (fun row hrow => (h row hrow).lineFeed) []
  rw [List.append_nil] at hread
  rw [hread, List.map_congr_left fun row hrow => dropReturn_eq_self (h row hrow).noReturn]
  simp [lines, endedLines]

theorem clean_of_mem_lines (hs : '\r' ∉ s) (h : row ∈ lines s) : Clean row := by
  refine ⟨lineFeed_not_mem_of_mem_lines h, fun hlast => ?_⟩
  exact hs (mem_of_mem_lines h (List.mem_of_getLast? hlast))

end Text
end LayeredConfig
