/-
Filling in values updates each line of a parameter file on its own.

`Becomes` gives the rules for the value of a name in the order in which they count, and `Updated`
says that a line and the row written for it are an instance of them. The rows are the lines of the
text that is written, as long as no value goes over a line feed (`fill_updates`). A carriage return
at the end of a value is read as a part of the line break.
-/
import LayeredConfig.Proofs.Dict
import LayeredConfig.Proofs.Parameters.Entry

namespace LayeredConfig
namespace Parameters

variable {line row : List Char} {overrides : Dict String} {d : Deployment} {draw : UInt32}
variable {name current value text : String} {draws : Nat → UInt32}

/-! ## Values -/

/-- The values that may be filled in. -/
def offered (overrides : Dict String) (d : Deployment) : List String :=
  d.name :: d.nameSpace :: d.project :: overrides.entries.map (·.2)

theorem mem_offered_of_find? (h : overrides.find? name = some value) :
    value ∈ offered overrides d := by
  have hmem := List.mem_map_of_mem (f := (·.2)) (Dict.find?_eq_some_iff.1 h)
  simp [offered, hmem]

theorem mem_offered_of_fallback? (h : fallback? d name = some value) :
    value ∈ offered overrides d := by
  unfold fallback? at h
  split at h
  · simp [offered, Option.some.inj h]
  · split at h
    · simp [offered, Option.some.inj h]
    · split at h
      · simp [offered, Option.some.inj h]
      · exact absurd h nofun

/-- What the value `old` of a name becomes. -/
inductive Becomes (overrides : Dict String) (d : Deployment) (name old : String) : String → Prop
    where
  | override {value : String} (hvalue : overrides.find? name = some value) (hne : value ≠ "")
    (hplain : name = generatedName → old ≠ "") : Becomes overrides d name old value
  | generated {value digits : String} (hvalue : overrides.find? name = some value)
    (hne : value ≠ "") (hname : name = generatedName) (hold : old = "")
    (hlength : digits.toList.length = 8) (hdigits : ∀ c ∈ digits.toList, c ∈ hexDigits) :
    Becomes overrides d name old (value ++ digits)
  | appName (hnone : ∀ value, overrides.find? name = some value → value = "") (hold : old = "")
    (hname : name = "appName") : Becomes overrides d name old d.name
  | nameSpace (hnone : ∀ value, overrides.find? name = some value → value = "") (hold : old = "")
    (hname : name = "namespace") : Becomes overrides d name old d.nameSpace
  | project (hnone : ∀ value, overrides.find? name = some value → value = "") (hold : old = "")
    (hname : name = "project") : Becomes overrides d name old d.project
  | kept (hnone : ∀ value, overrides.find? name = some value → value = "")
    (hold : old = "" → name ≠ "appName" ∧ name ≠ "namespace" ∧ name ≠ "project") :
    Becomes overrides d name old old

/-- Without an override the deployment decides, if there is no value yet. -/
theorem becomes_of_none (hnone : ∀ value, overrides.find? name = some value → value = "") :
    Becomes overrides d name current
      ((if current = "" then fallback? d name else none).getD current) := by
  by_cases hcurrent : current = ""
  · rw [if_pos hcurrent]
    unfold fallback?
    by_cases happ : name = "appName"
    · rw [if_pos happ]
      exact .appName hnone hcurrent happ
    · rw [if_neg happ]
      by_cases hspace : name = "namespace"
      · rw [if_pos hspace]
        exact .nameSpace hnone hcurrent hspace
      · rw [if_neg hspace]
        by_cases hproject : name = "project"
        · rw [if_pos hproject]
          exact .project hnone hcurrent hproject
        · rw [if_neg hproject]
          exact .kept hnone fun _ => ⟨happ, hspace, hproject⟩
  · rw [if_neg hcurrent]
    exact .kept hnone fun h => absurd h hcurrent

theorem becomes_filledValue (overrides : Dict String) (d : Deployment) (draw : UInt32)
    (name current : String) :
    Becomes overrides d name current (filledValue overrides d draw name current) := by
  unfold filledValue newValue?
  cases h : (overrides.find? name).filter (· ≠ "") with
  | some value =>
    obtain ⟨hvalue, hne⟩ := Option.filter_eq_some_iff.1 h
    have hne : value ≠ "" := by simpa using hne
    by_cases hgenerate : name = generatedName ∧ current = ""
    · simp only [if_pos hgenerate, Option.getD_some]
      exact .generated hvalue hne hgenerate.1 hgenerate.2 (length_suffix draw)
        fun c => mem_hexDigits_of_mem_suffix
    · simp only [if_neg hgenerate, Option.getD_some]
      exact .override hvalue hne fun hname hcurrent => hgenerate ⟨hname, hcurrent⟩
  | none =>
    refine becomes_of_none fun value hvalue => ?_
    have hempty := Option.filter_eq_none_iff.1 h value hvalue
    simpa using hempty

/-! ## Rows -/

/-- The row that is written for a line has its name and the value that this becomes. A line with a
`=` that keeps its value is written as it stands. -/
structure Updated (overrides : Dict String) (d : Deployment) (line row : List Char) : Prop where
  name : (entry row).1 = (entry line).1
  value : Becomes overrides d (entry line).1 (entry line).2 (entry row).2
  kept : '=' ∈ line → (entry row).2 = (entry line).2 → row = line

theorem updated_fillLine (overrides : Dict String) (d : Deployment) (draw : UInt32)
    (line : List Char) : Updated overrides d line (fillLine overrides d draw line) := by
  refine ⟨?_, ?_, fun hmark hvalue => ?_⟩
  · rw [entry_fillLine]
  · rw [entry_fillLine]
    exact becomes_filledValue overrides d draw _ _
  · rw [entry_fillLine] at hvalue
    exact fillLine_eq_self hmark hvalue

/-- A value that is filled in is one of those that are offered, or ends in a random suffix. -/
theorem offered_of_newValue? (h : newValue? overrides d draw name current = some value) :
    value ∈ offered overrides d ∨ ∃ v ∈ offered overrides d, value = v ++ suffix draw := by
  unfold newValue? at h
  cases hfilter : (overrides.find? name).filter (· ≠ "") with
  | some v =>
    have hv : v ∈ offered overrides d :=
      mem_offered_of_find? (Option.filter_eq_some_iff.1 hfilter).1
    simp only [hfilter, Option.some.injEq] at h
    by_cases hgenerate : name = generatedName ∧ current = ""
    · rw [if_pos hgenerate] at h
      exact .inr ⟨v, hv, h.symm⟩
    · rw [if_neg hgenerate] at h
      exact .inl (h ▸ hv)
  | none =>
    simp only [hfilter] at h
    by_cases hcurrent : current = ""
    · rw [if_pos hcurrent] at h
      exact .inl (mem_offered_of_fallback? h)
    · rw [if_neg hcurrent] at h
      exact absurd h nofun

theorem getLast?_suffix (draw : UInt32) :
    ∃ c ∈ hexDigits, (suffix draw).toList.getLast? = some c := by
  have hne : (suffix draw).toList ≠ [] := by
    intro h
    have hlength := length_suffix draw
    rw [h] at hlength
    exact absurd hlength (by decide)
  exact ⟨_, mem_hexDigits_of_mem_suffix (List.getLast_mem hne), List.getLast?_eq_some_getLast hne⟩

theorem lineFeed_not_mem_newValue? (hvalues : ∀ v ∈ offered overrides d, '\n' ∉ v.toList)
    (h : newValue? overrides d draw name current = some value) : '\n' ∉ value.toList := by
  rcases offered_of_newValue? h with hmem | ⟨v, hv, rfl⟩
  · exact hvalues value hmem
  · rw [String.toList_append, List.mem_append]
    rintro (hmem | hmem)
    · exact hvalues v hv hmem
    · exact absurd (mem_hexDigits_of_mem_suffix hmem) (by decide)

theorem noReturn_newValue? (hvalues : ∀ v ∈ offered overrides d, v.toList.getLast? ≠ some '\r')
    (h : newValue? overrides d draw name current = some value) :
    value.toList.getLast? ≠ some '\r' := by
  rcases offered_of_newValue? h with hmem | ⟨v, -, rfl⟩
  · exact hvalues value hmem
  · obtain ⟨c, hc, hlast⟩ := getLast?_suffix draw
    rw [String.toList_append, List.getLast?_append, hlast]
    rintro ⟨⟩
    exact absurd hc (by decide)

theorem lineFeed_not_mem_row (hname : '\n' ∉ name.toList) (hvalue : '\n' ∉ value.toList) :
    '\n' ∉ Parameters.row name value := by
  rw [Parameters.row, List.mem_append, List.mem_cons]
  rintro (h | h | h)
  · exact hname h
  · exact absurd h (by decide)
  · exact hvalue h

theorem noReturn_row (name : String) (hvalue : value.toList.getLast? ≠ some '\r') :
    (Parameters.row name value).getLast? ≠ some '\r' := by
  rw [Parameters.row, List.getLast?_append, List.getLast?_cons]
  cases hlast : value.toList.getLast? with
  | none => simp
  | some c =>
    rw [hlast] at hvalue
    exact hvalue

theorem lineFeed_not_mem_fillLine (hvalues : ∀ v ∈ offered overrides d, '\n' ∉ v.toList)
    (hline : '\n' ∉ line) : '\n' ∉ fillLine overrides d draw line := by
  cases h : newValue? overrides d draw (entry line).1 (entry line).2 with
  | some value =>
    rw [fillLine_of_some h]
    exact lineFeed_not_mem_row (mt mem_of_mem_name hline) (lineFeed_not_mem_newValue? hvalues h)
  | none => rwa [fillLine_of_none h]

theorem noReturn_fillLine (hvalues : ∀ v ∈ offered overrides d, v.toList.getLast? ≠ some '\r')
    (hline : line.getLast? ≠ some '\r') :
    (fillLine overrides d draw line).getLast? ≠ some '\r' := by
  cases h : newValue? overrides d draw (entry line).1 (entry line).2 with
  | some value =>
    rw [fillLine_of_some h]
    exact noReturn_row _ (noReturn_newValue? hvalues h)
  | none => rwa [fillLine_of_none h]

/-! ## The text -/

theorem exists_line_of_mem_filledRows (h : row ∈ filledRows draws overrides d text) :
    ∃ line ∈ Text.lines text.toList, ∃ draw, row = fillLine overrides d draw line := by
  obtain ⟨⟨line, i⟩, hmem, rfl⟩ := List.mem_map.1 h
  exact ⟨line, List.fst_mem_of_mem_zipIdx hmem, draws i, rfl⟩

/-- If no value goes over a line feed, the text that is written has one row for each line, and each
row is ended. If neither a line nor a value ends in a carriage return, the rows are its lines. -/
theorem fill_updates (draws : Nat → UInt32) (text : String)
    (hvalues : ∀ v ∈ offered overrides d, '\n' ∉ v.toList) :
    ∃ rows, (fill draws overrides d text).toList = Text.ended rows ∧ (∀ row ∈ rows, '\n' ∉ row) ∧
      List.Forall₂ (Updated overrides d) (Text.lines text.toList) rows ∧
      ('\r' ∉ text.toList → (∀ v ∈ offered overrides d, v.toList.getLast? ≠ some '\r') →
        Text.lines (fill draws overrides d text).toList = rows) := by
  have hlineFeed : ∀ row ∈ filledRows draws overrides d text, '\n' ∉ row := by
    intro row hrow
    obtain ⟨line, hline, draw, rfl⟩ := exists_line_of_mem_filledRows hrow
    exact lineFeed_not_mem_fillLine hvalues (Text.lineFeed_not_mem_of_mem_lines hline)
  refine ⟨filledRows draws overrides d text, toList_fill draws overrides d text, hlineFeed, ?_,
    fun htext hends => ?_⟩
  · refine (forall₂_filledRows draws overrides d text).imp ?_
    rintro line row ⟨draw, rfl⟩
    exact updated_fillLine overrides d draw line
  · rw [toList_fill]
    refine Text.lines_ended_of_clean fun row hrow => ⟨hlineFeed row hrow, ?_⟩
    obtain ⟨line, hline, draw, rfl⟩ := exists_line_of_mem_filledRows hrow
    exact noReturn_fillLine hends (Text.clean_of_mem_lines htext hline).noReturn

/-- A value that is replaced, a generated one, one from the deployment for a name without a `=`, a
value with a `=` and a comment. -/
theorem fill_updates_of_five :
    ∃ (overrides : Dict String) (d : Deployment) (text : String) (rows : List (List Char)),
      overrides = Parameter.dict [⟨"a", "1=2"⟩, ⟨"generateName", "g-"⟩] ∧ d = { name := "k" } ∧
      text = "a=x\ngenerateName=\nappName\nb=y=z\n# c" ∧
      (∀ v ∈ offered overrides d, '\n' ∉ v.toList) ∧ '\r' ∉ text.toList ∧
      fill (fun _ => 31) overrides d text =
        "a=1=2\ngenerateName=g-0000001f\nappName=k\nb=y=z\n# c\n" ∧
      Text.lines (fill (fun _ => 31) overrides d text).toList = rows ∧
      List.Forall₂ (Updated overrides d) (Text.lines text.toList) rows := by
  have hvalues : ∀ v ∈ offered (Parameter.dict [⟨"a", "1=2"⟩, ⟨"generateName", "g-"⟩])
      { name := "k" }, '\n' ∉ v.toList := by decide
  obtain ⟨rows, -, -, hrows, hlines⟩ :=
    fill_updates (fun _ => 31) "a=x\ngenerateName=\nappName\nb=y=z\n# c" hvalues
  exact ⟨_, _, _, rows, rfl, rfl, rfl, hvalues, by decide, by decide +kernel,
    hlines (by decide) (by decide), hrows⟩

end Parameters
end LayeredConfig
