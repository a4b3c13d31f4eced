/-
What the value of one name does to the other names of a parameter file.

A value is written as it comes. Read back, its first line is the value of its name, and each further
line is an entry of its own: the `spill` of the value. `strays` are all entries that a line leaves
for names besides its own. What is given for one name changes the other names by the strays alone
(`fill_confined_iff`). A line that is kept has a stray only if it is a name that ends in a carriage
return, which is lost with the line break.
-/
import LayeredConfig.Proofs.Deployment.Parameters
import LayeredConfig.Proofs.Parameters.Update

namespace LayeredConfig
namespace Parameters

variable {line : List Char} {overrides overrides' : Dict String} {d : Deployment} {draw : UInt32}
variable {name value text q : String} {draws : Nat → UInt32}

/-! ## Entries of one name -/

/-- The values of a name, in their order. -/
def valuesOf (name : String) (es : List (String × String)) : List String :=
  (es.filter (·.1 = name)).map (·.2)

theorem valuesOf_cons_of_ne (h : q ≠ name) (value : String) (es : List (String × String)) :
    valuesOf q ((name, value) :: es) = valuesOf q es := by
  simp [valuesOf, h.symm]

theorem valuesOf_flatMap {α : Type} (name : String) (f : α → List (String × String))
    (l : List α) : valuesOf name (l.flatMap f) = l.flatMap fun a => valuesOf name (f a) := by
  induction l with
  | nil => rfl
  | cons a l ih =>
    rw [List.flatMap_cons, List.flatMap_cons, ← ih]
    simp [valuesOf]

/-- The names of the lines of a text. -/
def names (text : String) : List String := (entries text).map (·.1)

theorem name_mem_names (h : line ∈ Text.lines text.toList) : (entry line).1 ∈ names text :=
  List.mem_map_of_mem (List.mem_map_of_mem h)

/-! ## Rows that are read back -/

/-- The entries that a row is read as, once it is ended. -/
def readRow (row : List Char) : List (String × String) := (Text.lines (row ++ ['\n'])).map entry

/-- The entries that the lines of a value after its first are read as. -/
def spill (value : String) : List (String × String) :=
  (Text.lines (value.toList ++ ['\n'])).tail.map entry

theorem spill_eq_nil (h : '\n' ∉ value.toList) : spill value = [] := by
  rw [spill, Text.lines_row h]
  rfl

theorem readRow_of_not_mem (h : '\n' ∉ line) : readRow line = [entry (Text.dropReturn line)] := by
  rw [readRow, Text.lines_row h]
  rfl

theorem exists_readRow_row (hname : '\n' ∉ name.toList) (hmark : '=' ∉ name.toList)
    (value : String) : ∃ first, readRow (row name value) = (name, first) :: spill value := by
  obtain ⟨first, hlines⟩ := Text.exists_lines_append '=' hname (by decide) (by decide) value.toList
  refine ⟨String.ofList first, ?_⟩
  rw [readRow, row, hlines, List.map_cons, entry_append hmark, String.ofList_toList, spill]

/-- A line with a `=` keeps its name when a carriage return is taken from its end. -/
theorem name_dropReturn (h : '=' ∈ line) : (entry (Text.dropReturn line)).1 = (entry line).1 := by
  obtain ⟨key, rest, rfl, hkey⟩ := List.eq_append_cons_of_mem h
  rw [Text.dropReturn_append_cons (by decide), entry_append hkey, entry_append hkey]

/-! ## Strays -/

/-- The entries that filling in a line leaves for other names. If a value is filled in, these are
the entries of its further lines. A line that is kept may be a name that ends in a carriage return,
and is read without it. -/
def strays (overrides : Dict String) (d : Deployment) (draw : UInt32) (line : List Char) :
    List (String × String) :=
  match newValue? overrides d draw (entry line).1 (entry line).2 with
  | some value => spill value
  | none => [entry (Text.dropReturn line)].filter (·.1 ≠ (entry line).1)

theorem strays_of_override
    (h : (overrides.find? (entry line).1).filter (· ≠ "") = some value)
    (hname : (entry line).1 ≠ generatedName) : strays overrides d draw line = spill value := by
  have hnew : newValue? overrides d draw (entry line).1 (entry line).2 = some value := by
    rw [newValue?_of_override h, if_neg fun hgenerate => hname hgenerate.1]
  simp only [strays, hnew]

/-- What is read of the row for a line is its own entry and the strays. -/
theorem readRow_fillLine (overrides : Dict String) (d : Deployment) (draw : UInt32)
    (hline : '\n' ∉ line) :
    (∃ first, readRow (fillLine overrides d draw line) =
        ((entry line).1, first) :: strays overrides d draw line) ∨
      readRow (fillLine overrides d draw line) = strays overrides d draw line := by
  unfold strays
  cases h : newValue? overrides d draw (entry line).1 (entry line).2 with
  | some value =>
    rw [fillLine_of_some h]
    exact .inl (exists_readRow_row (mt mem_of_mem_name hline) (mark_not_mem_name line) value)
  | none =>
    rw [fillLine_of_none h, readRow_of_not_mem hline]
    by_cases hname : (entry (Text.dropReturn line)).1 = (entry line).1
    · refine .inl ⟨(entry (Text.dropReturn line)).2, ?_⟩
      simp [← hname]
    · refine .inr ?_
      simp [hname]

theorem valuesOf_readRow_fillLine (hline : '\n' ∉ line) (hq : q ≠ (entry line).1) :
    valuesOf q (readRow (fillLine overrides d draw line)) =
      valuesOf q (strays overrides d draw line) := by
  rcases readRow_fillLine overrides d draw hline with ⟨first, hread⟩ | hread
  · rw [hread, valuesOf_cons_of_ne hq]
  · rw [hread]

theorem mem_readRow_of_mem_strays {e : String × String} (hline : '\n' ∉ line)
    (h : e ∈ strays overrides d draw line) : e ∈ readRow (fillLine overrides d draw line) := by
  rcases readRow_fillLine overrides d draw hline with ⟨first, hread⟩ | hread
  · rw [hread]
    exact List.mem_cons_of_mem _ h
  · rwa [hread]

theorem eq_or_mem_strays {e : String × String} (hline : '\n' ∉ line)
    (h : e ∈ readRow (fillLine overrides d draw line)) :
    e.1 = (entry line).1 ∨ e ∈ strays overrides d draw line := by
  rcases readRow_fillLine overrides d draw hline with ⟨first, hread⟩ | hread
  · rw [hread, List.mem_cons] at h
    rcases h with rfl | h
    · exact .inl rfl
    · exact .inr h
  · rw [hread] at h
    exact .inr h

theorem strays_eq_nil (hvalues : ∀ v ∈ offered overrides d, '\n' ∉ v.toList)
    (hline : '=' ∈ line ∨ line.getLast? ≠ some '\r') : strays overrides d draw line = [] := by
  unfold strays
  cases h : newValue? overrides d draw (entry line).1 (entry line).2 with
  | some value => exact spill_eq_nil (lineFeed_not_mem_newValue? hvalues h)
  | none =>
    have hname : (entry (Text.dropReturn line)).1 = (entry line).1 := by
      rcases hline with hmark | hend
      · exact name_dropReturn hmark
      · rw [Text.dropReturn_eq_self hend]
    simp [hname]

/-- What becomes of a line depends on what is given for its name alone. -/
theorem fillLine_congr (h : overrides'.find? (entry line).1 = overrides.find? (entry line).1) :
    fillLine overrides' d draw line = fillLine overrides d draw line := by
  simp only [fillLine, newValue?, h]

/-! ## A text -/

theorem entries_fill (draws : Nat → UInt32) (overrides : Dict String) (d : Deployment)
    (text : String) : entries (fill draws overrides d text) =
      (Text.lines text.toList).zipIdx.flatMap fun e =>
        readRow (fillLine overrides d (draws e.2) e.1) := by
  rw [entries, fill, String.toList_ofList, Text.lines_flatMap, List.map_flatMap]
  rfl

theorem lineFeed_not_mem_of_mem_zipIdx {e : List Char × Nat}
    (he : e ∈ (Text.lines text.toList).zipIdx) : '\n' ∉ e.1 :=
  Text.lineFeed_not_mem_of_mem_lines (List.fst_mem_of_mem_zipIdx he)

/-- A line can be read as it stands, whatever its end. -/
theorem zipIdx_lines_row (hline : '\n' ∉ line) :
    (Text.lines (String.ofList (line ++ ['\r', '\n'])).toList).zipIdx = [(line, 0)] := by
  have hrow : '\n' ∉ line ++ ['\r'] := by simp [hline]
  have hlines := Text.lines_row hrow []
  rw [List.append_assoc, List.singleton_append, Text.dropReturn_concat] at hlines
  rw [String.toList_ofList, hlines]
  rfl

theorem name_mem_names_fill_iff :
    name ∈ names (fill draws overrides d text) ↔
      ∃ e ∈ (Text.lines text.toList).zipIdx,
        name ∈ (readRow (fillLine overrides d (draws e.2) e.1)).map (·.1) := by
  rw [names, entries_fill, List.map_flatMap, List.mem_flatMap]

/-- All names of a text that has been filled in are names of the text and of strays. -/
theorem names_fill_subset_iff :
    (∀ name ∈ names (fill draws overrides d text), name ∈ names text) ↔
      ∀ e ∈ (Text.lines text.toList).zipIdx,
        ∀ stray ∈ strays overrides d (draws e.2) e.1, stray.1 ∈ names text := by
  constructor
  · intro h e he stray hstray
    have hread := mem_readRow_of_mem_strays (lineFeed_not_mem_of_mem_zipIdx he) hstray
    exact h _ (name_mem_names_fill_iff.2 ⟨e, he, List.mem_map_of_mem hread⟩)
  · intro h name hname
    obtain ⟨e, he, hmem⟩ := name_mem_names_fill_iff.1 hname
    obtain ⟨read, hread, rfl⟩ := List.mem_map.1 hmem
    rcases eq_or_mem_strays (lineFeed_not_mem_of_mem_zipIdx he) hread with hown | hstray
    · rw [hown]
      exact name_mem_names (List.fst_mem_of_mem_zipIdx he)
    · exact h e he read hstray

/-- Two fillings that differ in one name agree on another if the strays of the lines of the one
agree. -/
theorem valuesOf_fill_congr (hsame : ∀ q, q ≠ name → overrides'.find? q = overrides.find? q)
    (hq : q ≠ name)
    (hstrays : ∀ e ∈ (Text.lines text.toList).zipIdx, (entry e.1).1 = name →
      valuesOf q (strays overrides d (draws e.2) e.1) =
        valuesOf q (strays overrides' d (draws e.2) e.1)) :
    valuesOf q (entries (fill draws overrides d text)) =
      valuesOf q (entries (fill draws overrides' d text)) := by
  rw [entries_fill, entries_fill, valuesOf_flatMap, valuesOf_flatMap]
  refine List.flatMap_congr fun e he => ?_
  by_cases hname : (entry e.1).1 = name
  · have hfeed := lineFeed_not_mem_of_mem_zipIdx he
    have hne : q ≠ (entry e.1).1 := hname ▸ hq
    rw [valuesOf_readRow_fillLine hfeed hne, valuesOf_readRow_fillLine hfeed hne,
      hstrays e he hname]
  · rw [fillLine_congr (hsame _ hname)]

/-- Two override dictionaries that differ in what they give for one name leave the same values for
every other name, in every text, if and only if the strays of the lines of that name are the same
for the other names. A text that has been filled in has no new name if and only if no stray has one.
So nothing comes from one name to another if no value has a line feed and no line without a `=` ends
in a carriage return. -/
theorem fill_confined_iff (hsame : ∀ q, q ≠ name → overrides'.find? q = overrides.find? q) :
    ((∀ draws text q, q ≠ name →
        valuesOf q (entries (fill draws overrides d text)) =
          valuesOf q (entries (fill draws overrides' d text))) ↔
      ∀ draw line q, '\n' ∉ line → (entry line).1 = name → q ≠ name →
        valuesOf q (strays overrides d draw line) = valuesOf q (strays overrides' d draw line)) ∧
    (∀ draws text,
      (∀ found ∈ names (fill draws overrides d text), found ∈ names text) ↔
        ∀ e ∈ (Text.lines text.toList).zipIdx,
          ∀ stray ∈ strays overrides d (draws e.2) e.1, stray.1 ∈ names text) ∧
    ((∀ v ∈ offered overrides d, '\n' ∉ v.toList) →
      (∀ v ∈ offered overrides' d, '\n' ∉ v.toList) → ∀ draws text,
      (∀ line ∈ Text.lines text.toList, '=' ∈ line ∨ line.getLast? ≠ some '\r') →
        (∀ q, q ≠ name → valuesOf q (entries (fill draws overrides d text)) =
          valuesOf q (entries (fill draws overrides' d text))) ∧
        (∀ found ∈ names (fill draws overrides d text), found ∈ names text) ∧
        ∀ found ∈ names (fill draws overrides' d text), found ∈ names text) := by
  refine ⟨⟨fun h draw line q hline hname hq => ?_, fun h draws text q hq => ?_⟩,
    fun draws text => names_fill_subset_iff, fun hvalues hvalues' draws text htext =>
      ⟨fun q hq => valuesOf_fill_congr hsame hq fun e he _ => ?_,
        names_fill_subset_iff.2 fun e he => ?_, names_fill_subset_iff.2 fun e he => ?_⟩⟩
  · -- The text of the line alone.
    have hfill := h (fun _ => draw) (String.ofList (line ++ ['\r', '\n'])) q hq
    have hne : q ≠ (entry line).1 := hname ▸ hq
    simp only [entries_fill, zipIdx_lines_row hline, List.flatMap_singleton,
      valuesOf_readRow_fillLine hline hne] at hfill
    exact hfill
  · exact valuesOf_fill_congr hsame hq fun e he hname =>
      h _ _ q (lineFeed_not_mem_of_mem_zipIdx he) hname hq
  · have hline := htext e.1 (List.fst_mem_of_mem_zipIdx he)
    rw [strays_eq_nil hvalues hline, strays_eq_nil hvalues' hline]
  · rw [strays_eq_nil hvalues (htext e.1 (List.fst_mem_of_mem_zipIdx he))]
    exact List.forall_mem_nil _
  · rw [strays_eq_nil hvalues' (htext e.1 (List.fst_mem_of_mem_zipIdx he))]
    exact List.forall_mem_nil _

/-- Two values that go over a line feed and have the same spill: it is written twice, the same for
both. -/
theorem fill_confined_iff_of_same_spill :
    ∃ overrides overrides' : Dict String,
      overrides = Parameter.dict [⟨"p", "x\nq=2"⟩] ∧
      overrides' = Parameter.dict [⟨"p", "y\nq=2"⟩] ∧
      (∀ q, q ≠ "p" → overrides'.find? q = overrides.find? q) ∧
      (∀ draws text q, q ≠ "p" → valuesOf q (entries (fill draws overrides {} text)) =
        valuesOf q (entries (fill draws overrides' {} text))) ∧
      fill (fun _ => 0) overrides {} "p=\nq=1\n" = "p=x\nq=2\nq=1\n" ∧
      ∀ found ∈ names (fill (fun _ => 0) overrides {} "p=\nq=1\n"),
        found ∈ names "p=\nq=1\n" := by
  have hsame : ∀ q, q ≠ "p" → (Parameter.dict [⟨"p", "y\nq=2"⟩]).find? q =
      (Parameter.dict [⟨"p", "x\nq=2"⟩]).find? q := fun q hq => by
    rw [Parameter.find?_dict_of_forall_ne (by simpa using hq.symm),
      Parameter.find?_dict_of_forall_ne (by simpa using hq.symm)]
  obtain ⟨hvalues, hnames, -⟩ := fill_confined_iff (d := {}) hsame
  refine ⟨_, _, rfl, rfl, hsame, hvalues.2 fun draw line q hline hname hq => ?_, by decide +kernel,
    (hnames _ _).2 (by decide +kernel)⟩
  have hgenerate : (entry line).1 ≠ generatedName := by
    rw [hname]
    decide
  have hx : strays (Parameter.dict [⟨"p", "x\nq=2"⟩]) {} draw line = spill "x\nq=2" :=
    strays_of_override (by rw [hname]; rfl) hgenerate
  have hy : strays (Parameter.dict [⟨"p", "y\nq=2"⟩]) {} draw line = spill "y\nq=2" :=
    strays_of_override (by rw [hname]; rfl) hgenerate
  have hspill : spill "x\nq=2" = spill "y\nq=2" := by decide +kernel
  rw [hx, hy, hspill]

/-- A value that goes over line feeds puts a line before that of another name, and one under a name
that was not there. -/
theorem fill_invents_lines :
    ∃ overrides overrides' : Dict String,
      (∀ q, q ≠ "p" → overrides'.find? q = overrides.find? q) ∧
      valuesOf "q" (entries (fill (fun _ => 0) overrides {} "p=\nq=1\n")) = ["1"] ∧
      valuesOf "q" (entries (fill (fun _ => 0) overrides' {} "p=\nq=1\n")) = ["2", "1"] ∧
      "r" ∈ names (fill (fun _ => 0) overrides' {} "p=\nq=1\n") ∧
      "r" ∉ names "p=\nq=1\n" := by
  refine ⟨Parameter.dict [⟨"p", "x"⟩], Parameter.dict [⟨"p", "x\nq=2\nr=3"⟩], fun q hq => ?_,
    by decide +kernel, by decide +kernel, by decide +kernel, by decide +kernel⟩
  rw [Parameter.find?_dict_of_forall_ne (by simpa using hq.symm),
    Parameter.find?_dict_of_forall_ne (by simpa using hq.symm)]

end Parameters
end LayeredConfig
