/-
Cutting a text into lines and a line into a name and a value.
-/

namespace LayeredConfig
namespace Text

/-- What stands before the first `mark`, and what stands after it if there is one. -/
def cut (mark : Char) : List Char → List Char × Option (List Char)
  | [] => ([], none)
  | c :: rest =>
    if c = mark then ([], some rest)
    else
      let (before, after) := cut mark rest
      (c :: before, after)

/-- A text cut at a mark is the text before it, the mark, and the text after it. -/
theorem eq_of_cut_some {mark : Char} {s before after : List Char}
    (h : cut mark s = (before, some after)) : s = before ++ mark :: after ∧ mark ∉ before := by
  induction s generalizing before with
  | nil => simp [cut] at h
  | cons c rest ih =>
    by_cases hc : c = mark
    · simp [cut, hc] at h
      obtain ⟨rfl, rfl⟩ := h
      simp [hc]
    · rcases hr : cut mark rest with ⟨b, a⟩
      simp [cut, hc, hr] at h
      obtain ⟨rfl, rfl⟩ := h
      obtain ⟨h1, h2⟩ := ih hr
      exact ⟨by simp [h1], by simp [h2, Ne.symm hc]⟩

/-- A text without a mark is not cut. -/
theorem cut_of_not_mem {mark : Char} {s : List Char} (h : mark ∉ s) : cut mark s = (s, none) := by
  induction s with
  | nil => rfl
  | cons c rest ih =>
    simp only [List.mem_cons, not_or] at h
    simp [cut, Ne.symm h.1, ih h.2]

/-- The line without a carriage return at its end. -/
def dropReturn (line : List Char) : List Char :=
  if line.getLast? = some '\r' then line.dropLast else line

/-- The lines of a text that end in a line feed, without it, and what follows the last of them. -/
def endedLines : List Char → List (List Char) × List Char
  | [] => ([], [])
  | c :: rest => match endedLines rest with
    | (ls, last) =>
      if c = '\n' then ([] :: ls, last)
      else match ls with
        | [] => ([], c :: last)
        | line :: ls => ((c :: line) :: ls, last)

/-- Cutting a text into lines loses nothing. -/
theorem join_endedLines (s : List Char) :
    (endedLines s).1.flatMap (· ++ ['\n']) ++ (endedLines s).2 = s := by
  induction s with
  | nil => rfl
  | cons c rest ih =>
    rcases h : endedLines rest with ⟨ls, last⟩
    rw [h] at ih
    by_cases hc : c = '\n'
    · simpa [endedLines, h, hc] using ih
    · cases ls with
      | nil => simpa [endedLines, h, hc] using ih
      | cons line ls => simpa [endedLines, h, hc] using ih

/-- The lines of a text, each as it stands before its line break: a line feed, or a carriage return
and a line feed. A last line need not have one, and then keeps all its characters. -/
def lines (s : List Char) : List (List Char) :=
  let (ended, last) := endedLines s
  ended.map dropReturn ++ if last.isEmpty then [] else [last]

end Text
end LayeredConfig
