/-
What edits make of a fragment and of config maps.

A fragment gets the entries that it lacks, each once and in the order in which they are asked for
first (`Edit.revised_eq`). In a config map the value that is set last counts
(`ConfigMap.find?_setAll`). So all that matters in the end is which entries are asked for in which
order, and which value comes last.
-/
import LayeredConfig.Proofs.Dict
import LayeredConfig.Proofs.Edit.Step
import LayeredConfig.Proofs.Yaml.Writable

namespace LayeredConfig

open Yaml (Value)

variable {edits later : List Edit} {e : Edit} {f : Fragment} {m : ConfigMap}
variable {l l' : List Setting} {s : Setting} {app : String}

/-! ## Entries of a fragment -/

namespace Fragment

/-- Registers several texts in a list, each once. -/
def addMissing (names l : List String) : List String := names.foldl (fun l s => (addOnce s l).1) l

theorem addOnce_eq (s : String) (l : List String) :
    addOnce s l = (l ++ if s ∈ l then [] else [s], decide (s ∉ l)) := by
  rw [addOnce]
  split <;> simp_all

theorem addMissing_append (names more l : List String) :
    addMissing (names ++ more) l = addMissing more (addMissing names l) := List.foldl_append

theorem mem_addMissing {s : String} {names l : List String} :
    s ∈ addMissing names l ↔ s ∈ l ∨ s ∈ names := by
  induction names generalizing l with
  | nil => simp [addMissing]
  | cons name names ih =>
    have hstep : addMissing (name :: names) l = addMissing names (addOnce name l).1 := rfl
    rw [hstep, ih, mem_addOnce, List.mem_cons, or_comm (a := s = name), or_assoc]

theorem addMissing_eq (names l : List String) :
    addMissing names l = l ++ names.eraseDups.filter (· ∉ l) := by
  induction names using List.reverseRecOn with
  | nil => simp [addMissing]
  | append_singleton names s ih =>
    have hstep : addMissing (names ++ [s]) l = (addOnce s (addMissing names l)).1 := by
      rw [addMissing_append]
      rfl
    rw [hstep, addOnce_eq, List.eraseDups_append, List.filter_append, ← List.append_assoc, ← ih]
    by_cases hl : s ∈ l <;> by_cases hn : s ∈ names <;>
      simp [mem_addMissing, hl, hn, List.removeAll, List.eraseDups_cons]

theorem count_addOnce (s name : String) (l : List String) :
    (addOnce name l).1.count s = if s = name then max 1 (l.count s) else l.count s := by
  rw [addOnce_eq]
  by_cases hname : s = name
  · subst hname
    by_cases hs : s ∈ l
    · have hpos := List.count_pos_iff.2 hs
      rw [if_pos rfl, if_pos hs, List.append_nil]
      exact (Nat.max_eq_right hpos).symm
    · rw [if_pos rfl, if_neg hs, List.count_append, List.count_eq_zero_of_not_mem hs]
      simp
  · by_cases hl : name ∈ l <;> simp [hl, hname, Ne.symm hname]

/-- What is registered is there once, unless it was there more often before. -/
theorem count_addMissing (s : String) (names l : List String) :
    (addMissing names l).count s = if s ∈ names then max 1 (l.count s) else l.count s := by
  induction names generalizing l with
  | nil => rfl
  | cons name names ih =>
    have hstep : addMissing (name :: names) l = addMissing names (addOnce name l).1 := rfl
    rw [hstep, ih, count_addOnce]
    by_cases hname : s = name <;> by_cases hs : s ∈ names <;> simp [hname, hs]

end Fragment

namespace Edit

/-- The packages that the edits point at, in the same order. -/
def packages (edits : List Edit) : List String :=
  edits.filterMap fun
    | package base => some base
    | setting _ => none

def settings (edits : List Edit) : List Setting :=
  edits.filterMap fun
    | package _ => none
    | setting s => some s

theorem settings_append (edits later : List Edit) :
    settings (edits ++ later) = settings edits ++ settings later := List.filterMap_append

theorem settings_cons (e : Edit) (edits : List Edit) :
    settings (e :: edits) = settings [e] ++ settings edits := settings_append [e] edits

theorem packages_append (edits later : List Edit) :
    packages (edits ++ later) = packages edits ++ packages later := List.filterMap_append

theorem mem_settings : s ∈ settings edits ↔ setting s ∈ edits := by
  rw [settings, List.mem_filterMap]
  constructor
  · rintro ⟨e | s', hmem, heq⟩
    · exact absurd heq nofun
    · exact Option.some.inj heq ▸ hmem
  · exact fun hmem => ⟨_, hmem, rfl⟩

@[simp]
theorem settings_map_setting (l : List Setting) : settings (l.map setting) = l := by
  induction l with
  | nil => rfl
  | cons s l ih => exact congrArg (s :: ·) ih

@[simp]
theorem packages_map_setting (l : List Setting) : packages (l.map setting) = [] := by
  induction l with
  | nil => rfl
  | cons s l ih => exact ih

/-- The fragment after several edits. -/
def revised (f : Fragment) (edits : List Edit) : Fragment := edits.foldl revise f

/-- The fragments that several edits write, one after the other. -/
def fragments (f : Fragment) : List Edit → List Fragment
  | [] => []
  | e :: edits => (if e.rewrites f then [e.revise f] else []) ++ fragments (e.revise f) edits

theorem fragments_singleton (f : Fragment) (e : Edit) :
    fragments f [e] = if e.rewrites f then [e.revise f] else [] := List.append_nil _

theorem fragments_cons (f : Fragment) (e : Edit) (edits : List Edit) :
    fragments f (e :: edits) = fragments f [e] ++ fragments (e.revise f) edits := by
  rw [fragments_singleton]
  rfl

theorem fragments_append (f : Fragment) (edits later : List Edit) :
    fragments f (edits ++ later) = fragments f edits ++ fragments (revised f edits) later := by
  induction edits generalizing f with
  | nil => rfl
  | cons e edits ih =>
    rw [List.cons_append, fragments_cons, ih, fragments_cons f e edits, List.append_assoc]
    rfl

/-- An edit that does not write the fragment leaves it as it is. -/
theorem revise_of_rewrites (h : e.rewrites f = false) : e.revise f = f := by
  cases e with
  | package base => exact absurd h nofun
  | setting s =>
    rw [rewrites, Fragment.addStrategicPatch, Fragment.addOnce_eq] at h
    have hmem : ConfigMap.fileFor s.app ∈ f.strategicPatches := by simpa using h
    rw [revise, Fragment.addStrategicPatch, Fragment.addOnce_eq]
    simp [hmem]

/-- The files of the config maps that the edits set texts in. -/
def files (edits : List Edit) : List String := (settings edits).map fun s => ConfigMap.fileFor s.app

theorem files_append (edits later : List Edit) :
    files (edits ++ later) = files edits ++ files later := by
  rw [files, settings_append, List.map_append, ← files, ← files]

theorem revised_append (f : Fragment) (edits later : List Edit) :
    revised f (edits ++ later) = revised (revised f edits) later := List.foldl_append

theorem revised_eq (f : Fragment) (edits : List Edit) : revised f edits =
    { f with
      apiVersion := if packages edits = [] then f.apiVersion else some Fragment.headerVersion
      kind := if packages edits = [] then f.kind else some Fragment.headerKind
      resources := Fragment.addMissing (packages edits) f.resources
      strategicPatches := Fragment.addMissing (files edits) f.strategicPatches } := by
  induction edits using List.reverseRecOn with
  | nil => rfl
  | append_singleton edits e ih =>
    rw [revised_append, ih, packages_append, files_append, Fragment.addMissing_append,
      Fragment.addMissing_append]
    cases e with
    | package base =>
      simp [packages, files, settings, revised, revise, Fragment.addMissing, Fragment.withHeader,
        Fragment.addResource]
    | setting s =>
      simp [packages, files, settings, revised, revise, Fragment.addMissing,
        Fragment.addStrategicPatch]

theorem mem_strategicPatches_revised {name : String} :
    name ∈ (revised f edits).strategicPatches ↔ name ∈ f.strategicPatches ∨ name ∈ files edits := by
  rw [revised_eq]
  exact Fragment.mem_addMissing

/-- Nothing has to be written into the fragment. -/
def Settled (f : Fragment) (edits : List Edit) : Prop :=
  packages edits = [] ∧ ∀ name ∈ files edits, name ∈ f.strategicPatches

instance (f : Fragment) (edits : List Edit) : Decidable (Settled f edits) :=
  inferInstanceAs
    (Decidable (packages edits = [] ∧ ∀ name ∈ files edits, name ∈ f.strategicPatches))

theorem settled_append : Settled f (edits ++ later) ↔ Settled f edits ∧ Settled f later := by
  rw [Settled, packages_append, files_append, List.append_eq_nil_iff, List.forall_mem_append]
  exact and_and_and_comm

theorem settled_singleton : Settled f [e] ↔ e.rewrites f = false := by
  cases e with
  | package base => simp [Settled, packages, rewrites]
  | setting s =>
    simp [Settled, packages, files, settings, rewrites, Fragment.addStrategicPatch,
      Fragment.addOnce_eq]

/-- What was asked for is there, and an edit that asks for it once more has nothing to write. -/
theorem settled_append_singleton : Settled f (edits ++ [e]) ↔
    Settled f edits ∧ e.rewrites (revised f edits) = false := by
  rw [← settled_singleton, settled_append]
  refine and_congr_right fun hedits => and_congr_right fun _ => forall₂_congr fun name _ => ?_
  rw [mem_strategicPatches_revised]
  exact ⟨.inl, fun h => h.elim id (hedits.2 name)⟩

theorem getLast?_fragments (f : Fragment) (edits : List Edit) :
    (fragments f edits).getLast? = if Settled f edits then none else some (revised f edits) := by
  induction edits using List.reverseRecOn with
  | nil => rfl
  | append_singleton edits e ih =>
    rw [fragments_append, fragments_singleton, List.getLast?_append, ih, revised_append,
      if_congr settled_append_singleton rfl rfl]
    cases hrewrites : e.rewrites (revised f edits) with
    | true => simp [revised]
    | false =>
      have hsame : revised (revised f edits) [e] = revised f edits := revise_of_rewrites hrewrites
      simp [hsame]

theorem fragments_eq_nil_iff : fragments f edits = [] ↔ Settled f edits := by
  rw [← List.getLast?_eq_none_iff, getLast?_fragments]
  split <;> simp_all

end Edit

/-! ## What can be written -/

namespace Yaml.Value

theorem entriesWritable_append (l l' : List (Value × Value)) :
    isWritable.entriesWritable (l ++ l') =
      (isWritable.entriesWritable l && isWritable.entriesWritable l') := by
  induction l with
  | nil => rfl
  | cons e l ih =>
    rw [List.cons_append, isWritable.entriesWritable, isWritable.entriesWritable, ih,
      Bool.and_assoc, Bool.and_assoc, Bool.and_assoc]

end Yaml.Value

namespace ConfigMap

/-- Only the metadata can be in the way of writing a config map. -/
theorem isWritable_toValue (m : ConfigMap) :
    m.toValue.isWritable false = m.metadata.toValue.isWritable false := by
  have hdict (name : String) (d? : Option (Dict String)) : Value.isWritable.entriesWritable
      (Value.Fields.optional name Value.ofTextDict d?) = true := by
    cases d? with
    | none => rfl
    | some d =>
      show (true && Value.isWritable false (Value.ofTextDict d) && true) = true
      rw [Value.isWritable_ofTextDict]
      rfl
  have hflag : Value.isWritable.entriesWritable
      (Value.Fields.optional "immutable" Value.bool m.isFixed) = true := by
    cases m.isFixed <;> rfl
  have hentries : m.toValue.isWritable false = Value.isWritable.entriesWritable
      (Value.Fields.always "apiVersion" (.string apiVersion) ++
        Value.Fields.always "kind" (.string kind) ++
        Value.Fields.optional "binaryData" Value.ofTextDict m.binaryData ++
        Value.Fields.optional "data" Value.ofTextDict m.data ++
        Value.Fields.optional "immutable" .bool m.isFixed ++
        Value.Fields.always "metadata" m.metadata.toValue) := rfl
  rw [hentries]
  simp only [Value.entriesWritable_append, hdict, hflag]
  simp [Value.Fields.always, Value.isWritable.entriesWritable, Value.isWritable]

theorem exists_print_congr {m m' : ConfigMap} (h : m'.metadata = m.metadata) :
    (∃ s, m'.print = .ok s) ↔ ∃ s, m.print = .ok s := by
  have hiff (m : ConfigMap) :
      (∃ s, m.print = .ok s) ↔ m.metadata.toValue.isWritable false = true := by
    rw [← isWritable_toValue, print, Value.print]
    cases m.toValue.isWritable false <;> simp
  rw [hiff, hiff, h]

theorem exists_print_setText (m : ConfigMap) (name value : String) :
    (∃ s, (m.setText name value).print = .ok s) ↔ ∃ s, m.print = .ok s := exists_print_congr rfl

end ConfigMap

/-! ## Texts of a config map -/

/-- The value that is set last for a parameter. -/
def Setting.last? (l : List Setting) (app param : String) : Option String :=
  (l.filter fun s => s.app = app ∧ s.param = param).getLast?.map (·.value)

namespace ConfigMap

/-- The config map of an application after several settings. -/
def setAll (app : String) (m : ConfigMap) (l : List Setting) : ConfigMap :=
  l.foldl (fun m s => if s.app = app then m.setText s.param s.value else m) m

/-- The config maps of an application that several settings write, one after the other. -/
def versions (app : String) (m : ConfigMap) : List Setting → List ConfigMap
  | [] => []
  | s :: l =>
    (if s.app = app then [m.setText s.param s.value] else []) ++ versions app (setAll app m [s]) l

theorem setAll_append (app : String) (m : ConfigMap) (l l' : List Setting) :
    setAll app m (l ++ l') = setAll app (setAll app m l) l' := List.foldl_append

theorem versions_singleton (app : String) (m : ConfigMap) (s : Setting) :
    versions app m [s] = if s.app = app then [m.setText s.param s.value] else [] :=
  List.append_nil _

theorem versions_append (app : String) (m : ConfigMap) (l l' : List Setting) :
    versions app m (l ++ l') = versions app m l ++ versions app (setAll app m l) l' := by
  induction l generalizing m with
  | nil => rfl
  | cons s l ih =>
    rw [List.cons_append, versions, ih, versions, List.append_assoc]
    rfl

theorem getLast?_versions (app : String) (m : ConfigMap) (l : List Setting) :
    (versions app m l).getLast? =
      if ∀ s ∈ l, s.app ≠ app then none else some (setAll app m l) := by
  induction l using List.reverseRecOn with
  | nil => rfl
  | append_singleton l s ih =>
    rw [versions_append, versions_singleton, List.getLast?_append, ih, setAll_append]
    by_cases hs : s.app = app
    · have hcalled : ¬ ∀ s' ∈ l ++ [s], s'.app ≠ app := fun h => h s (by simp) hs
      rw [if_pos hs, if_neg hcalled]
      simp [setAll, hs]
    · simp [setAll, hs, or_imp, forall_and]

theorem setAll_singleton (app : String) (m : ConfigMap) (s : Setting) :
    setAll app m [s] = if s.app = app then m.setText s.param s.value else m := rfl

theorem setAll_eq (app : String) (m : ConfigMap) (l : List Setting) :
    setAll app m l = { m with data := (setAll app m l).data } := by
  induction l using List.reverseRecOn with
  | nil => rfl
  | append_singleton l s ih =>
    rw [setAll_append, setAll_singleton]
    split
    · rw [ih, setText]
    · exact ih

theorem exists_print_setAll (app : String) (m : ConfigMap) (l : List Setting) :
    (∃ s, (setAll app m l).print = .ok s) ↔ ∃ s, m.print = .ok s :=
  exists_print_congr (by rw [setAll_eq])

theorem versions_of_forall_ne (m : ConfigMap) (h : ∀ s ∈ l, s.app ≠ app) :
    versions app m l = [] := by
  rw [← List.getLast?_eq_none_iff, getLast?_versions, if_pos h]

end ConfigMap

namespace Setting

theorem last?_append_singleton (l : List Setting) (s : Setting) (app param : String) :
    last? (l ++ [s]) app param =
      if s.app = app ∧ s.param = param then some s.value else last? l app param := by
  rw [last?, List.filter_append, List.getLast?_append]
  by_cases h : s.app = app ∧ s.param = param <;> simp [h, last?]

theorem last?_eq_none_iff {app param : String} :
    last? l app param = none ↔ ∀ s ∈ l, s.app = app → s.param ≠ param := by
  simp [last?]

/-- Whether an application has been set anything is seen from the values that were set last. -/
theorem forall_ne_iff_of_last? (h : ∀ param, last? l' app param = last? l app param) :
    (∀ s ∈ l', s.app ≠ app) ↔ ∀ s ∈ l, s.app ≠ app := by
  have hiff (l : List Setting) :
      (∀ s ∈ l, s.app ≠ app) ↔ ∀ param, last? l app param = none := by
    simp only [last?_eq_none_iff]
    exact ⟨fun h param s hs hsapp => absurd hsapp (h s hs),
      fun h s hs hsapp => h s.param s hs hsapp rfl⟩
  rw [hiff, hiff]
  simp only [h]

end Setting

namespace ConfigMap

theorem find?_setAll (app : String) (m : ConfigMap) (l : List Setting) (param : String) :
    ((setAll app m l).data.getD {}).find? param =
      (Setting.last? l app param).or ((m.data.getD {}).find? param) := by
  induction l using List.reverseRecOn with
  | nil => rfl
  | append_singleton l s ih =>
    rw [setAll_append, setAll_singleton, Setting.last?_append_singleton]
    by_cases happ : s.app = app
    · rw [if_pos happ, find?_setText, ih]
      by_cases hparam : param = s.param
      · simp [happ, hparam]
      · simp [Ne.symm hparam, hparam]
    · simp [happ, ih]

theorem data_setAll (app : String) (m : ConfigMap) (l : List Setting) :
    (setAll app m l).data =
      if ∀ s ∈ l, s.app ≠ app then m.data else some ((setAll app m l).data.getD {}) := by
  induction l using List.reverseRecOn with
  | nil => rfl
  | append_singleton l s ih =>
    rw [setAll_append, setAll_singleton]
    by_cases happ : s.app = app
    · have hcalled : ¬ ∀ s' ∈ l ++ [s], s'.app ≠ app := fun h => h s (by simp) happ
      rw [if_pos happ, if_neg hcalled]
      rfl
    · rw [if_neg happ]
      refine ih.trans (if_congr ?_ rfl rfl)
      simp [happ, or_imp, forall_and]

/-- Only the values that are set last count. -/
theorem setAll_congr (m : ConfigMap)
    (h : ∀ param, Setting.last? l' app param = Setting.last? l app param) :
    setAll app m l' = setAll app m l := by
  have hdata : (setAll app m l').data.getD {} = (setAll app m l).data.getD {} := by
    refine Dict.ext_find? fun param => ?_
    rw [find?_setAll, find?_setAll, h]
  rw [setAll_eq app m l', setAll_eq app m l, data_setAll app m l', data_setAll app m l, hdata,
    if_congr (Setting.forall_ne_iff_of_last? h) rfl rfl]

theorem getLast?_versions_congr (m : ConfigMap)
    (h : ∀ param, Setting.last? l' app param = Setting.last? l app param) :
    (versions app m l').getLast? = (versions app m l).getLast? := by
  rw [getLast?_versions, getLast?_versions, setAll_congr m h,
    if_congr (Setting.forall_ne_iff_of_last? h) rfl rfl]

end ConfigMap
end LayeredConfig
