/-
Which layer decides, in the fields that hold one value or a dictionary.

A single value is that of the first layer that gives one, an entry of a dictionary that of the last
layer that has its key. Only layers that are taken apart count. In each of these fields a run puts
the values of the layers together one after the other (`Field.Combines`), so each rule is one about
a fold over a list. A parameter is stronger than every layer in the name space, and the deployment
weaker (`Component.merge_decided`).
-/
import Mathlib
import LayeredConfig.Proofs.Deployment.Parameters
import LayeredConfig.Proofs.Fold.Run
import LayeredConfig.Proofs.Yaml.Decide

namespace LayeredConfig

/-! ## Values put together -/

/-- The first text that is not empty. -/
def firstGiven? (texts : List String) : Option String := texts.find? (· ≠ "")

theorem foldl_firstNonEmpty_of_ne {s : String} (hs : s ≠ "") (l : List String) :
    l.foldl Policy.firstNonEmpty s = s := by
  induction l with
  | nil => rfl
  | cons t l ih =>
    have hfirst : Policy.firstNonEmpty s t = s := if_neg hs
    rw [List.foldl_cons, hfirst, ih]

theorem foldl_firstNonEmpty (l : List String) :
    l.foldl Policy.firstNonEmpty "" = (firstGiven? l).getD "" := by
  induction l with
  | nil => rfl
  | cons s l ih =>
    have hfirst : Policy.firstNonEmpty "" s = s := if_pos rfl
    rw [List.foldl_cons, hfirst, firstGiven?]
    by_cases hs : s = ""
    · rw [hs, ih, List.find?_cons_of_neg (by simp), firstGiven?]
    · rw [foldl_firstNonEmpty_of_ne hs, List.find?_cons_of_pos (by simpa using hs)]
      rfl

theorem foldl_or {α : Type} (o : Option α) (l : List (Option α)) :
    l.foldl Option.or o = o.or (l.findSome? id) := by
  induction l generalizing o with
  | nil => simp
  | cons p l ih =>
    rw [List.foldl_cons, ih, List.findSome?_cons, Option.or_assoc]
    cases p <;> simp

/-! ## Runs -/

/-- The fragments of the layers that are taken apart. -/
def Layer.takenApart (layers : List Layer) : List Fragment :=
  (layers.map (·.fragment)).filter fun f => f.bases.isSome

theorem Layer.takenApart_of_isSome {layer : Layer} (h : layer.fragment.bases.isSome = true)
    (rest : List Layer) : takenApart (layer :: rest) = layer.fragment :: takenApart rest := by
  rw [takenApart, List.map_cons, List.filter_cons, if_pos h, ← takenApart]

theorem Layer.takenApart_of_not_isSome {layer : Layer} (h : layer.fragment.bases.isSome = false)
    (rest : List Layer) : takenApart (layer :: rest) = takenApart rest := by
  rw [takenApart, List.map_cons, List.filter_cons, if_neg (by simp [h]), ← takenApart]

/-- Folding the field of a layer puts its value together with the one that is there. -/
structure Field.Combines (field : Field) (combine : field.Value → field.Value → field.Value) :
    Prop where
  ne_bases : field ≠ .bases
  value_fold : ∀ (site : Site) (v : field.Value) (c c' : Cell field),
    field.fold site v c = .ok c' → c'.value = combine c.value v

namespace Field

variable {root : Path} {layers : List Layer} {field : Field}
variable {combine : field.Value → field.Value → field.Value} {c c' : Cell field}

theorem Combines.value_run (hf : field.Combines combine) (h : field.run root layers c = .ok c') :
    c'.value = ((Layer.takenApart layers).map (·.get field)).foldl combine c.value := by
  induction layers generalizing c with
  | nil =>
    obtain rfl : c = c' := Except.ok.inj h
    rfl
  | cons layer rest ih =>
    obtain ⟨d, hd, hrest⟩ := run_cons.1 h
    rw [ih hrest]
    rcases Fragment.foldCell_eq_ok hd with ⟨hb, hd⟩ | ⟨hb, hd⟩
    · rw [foldWhole_of_ne hf.ne_bases] at hd
      obtain rfl : c = d := Except.ok.inj hd
      rw [Layer.takenApart_of_not_isSome hb]
    · rw [Layer.takenApart_of_isSome hb, List.map_cons, List.foldl_cons,
        hf.value_fold _ _ _ _ hd]

theorem combines_namePrefix : Combines .namePrefix Policy.firstNonEmpty :=
  ⟨by decide, fun _ _ _ _ h => by rw [← Except.ok.inj h]; rfl⟩

theorem combines_nameSuffix : Combines .nameSuffix Policy.firstNonEmpty :=
  ⟨by decide, fun _ _ _ _ h => by rw [← Except.ok.inj h]; rfl⟩

theorem combines_nameSpace : Combines .nameSpace Policy.firstNonEmpty :=
  ⟨by decide, fun _ _ _ _ h => by rw [← Except.ok.inj h]; rfl⟩

theorem combines_generatorOptions : Combines .generatorOptions Option.or :=
  ⟨by decide, fun _ _ _ _ h => by rw [← Except.ok.inj h]; rfl⟩

theorem combines_commonLabels : Combines .commonLabels Dict.merge :=
  ⟨by decide, fun _ _ _ _ h => by rw [← Except.ok.inj h]; rfl⟩

theorem combines_commonAnnotations : Combines .commonAnnotations Dict.merge :=
  ⟨by decide, fun _ _ _ _ h => by rw [← Except.ok.inj h]; rfl⟩

end Field

/-! ## Composed fragments -/

/-- The dictionary has the keys of all these, each with the value of the last one that has it. -/
structure Dict.LastOf (d : Dict String) (ds : List (Dict String)) : Prop where
  mem_keys_iff : ∀ key, key ∈ d.keys ↔ ∃ e ∈ ds, key ∈ e.keys
  find?_eq : ∀ key, d.find? key = (ds.filterMap (·.find? key)).getLast?

theorem Dict.lastOf_of_find? {d : Dict String} {ds : List (Dict String)}
    (h : ∀ key, d.find? key = (ds.filterMap (·.find? key)).getLast?) : d.LastOf ds := by
  refine ⟨fun key => ?_, h⟩
  rw [mem_keys_iff_find?, h, Option.isSome_iff_ne_none, ne_eq, List.getLast?_eq_none_iff,
    ← ne_eq, List.ne_nil_iff_exists_cons]
  simp only [mem_keys_iff_find?, Option.isSome_iff_exists]
  constructor
  · rintro ⟨v, l, hl⟩
    have hv : v ∈ ds.filterMap (·.find? key) := hl ▸ List.mem_cons_self
    obtain ⟨e, he, hfind⟩ := List.mem_filterMap.1 hv
    exact ⟨e, he, v, hfind⟩
  · rintro ⟨e, he, v, hfind⟩
    have hv : v ∈ ds.filterMap (·.find? key) := List.mem_filterMap.2 ⟨e, he, hfind⟩
    exact List.exists_cons_of_ne_nil (List.ne_nil_of_mem hv)

namespace Component

variable {d : Deployment} {root : Path} {base : Layer} {overlays : List Layer}
variable {parameters : List Parameter} {f : Fragment}

/-- Who decides on the single values and dictionaries of a fragment that is composed of these
layers. -/
structure Decided (d : Deployment) (layers : List Layer) (parameters : List Parameter)
    (f : Fragment) : Prop where
  namePrefix : f.namePrefix = (firstGiven? ((Layer.takenApart layers).map (·.namePrefix))).getD ""
  nameSuffix : f.nameSuffix = (firstGiven? ((Layer.takenApart layers).map (·.nameSuffix))).getD ""
  generatorOptions : f.generatorOptions = (Layer.takenApart layers).findSome? (·.generatorOptions)
  commonLabels : f.commonLabels.LastOf ((Layer.takenApart layers).map (·.commonLabels))
  commonAnnotations :
    f.commonAnnotations.LastOf ((Layer.takenApart layers).map (·.commonAnnotations))
  nameSpace : f.nameSpace =
    (((Parameter.values parameters "namespace").getLast?.filter (· ≠ "")).or
      (firstGiven? ((Layer.takenApart layers).map (·.nameSpace)))).getD d.nameSpace

/-- What decides if no parameter does. -/
theorem nameSpace_eq (d : Deployment) (parameters : List Parameter) (texts : List String) :
    nameSpace d parameters ((firstGiven? texts).getD "") =
      (((Parameter.values parameters "namespace").getLast?.filter (· ≠ "")).or
        (firstGiven? texts)).getD d.nameSpace := by
  rw [nameSpace, Parameter.find?_dict, nameSpaceParameter]
  cases (Parameter.values parameters "namespace").getLast?.filter (· ≠ "") with
  | some s => rfl
  | none =>
    cases hfirst : firstGiven? texts with
    | none => rfl
    | some s =>
      have hs : s ≠ "" := by simpa using List.find?_some hfirst
      exact if_neg hs

theorem lastOf_foldl_merge (ds : List (Dict String)) :
    (ds.foldl Dict.merge Dict.empty).LastOf ds :=
  Dict.lastOf_of_find? fun key => (Dict.find?_foldl_merge .empty ds key).trans Option.or_none

theorem merge_decided (h : merge d root base overlays parameters = .ok f) :
    Decided d (base :: overlays) parameters f := by
  obtain ⟨acc, hacc, rfl⟩ := merge_eq_ok_iff.1 h
  obtain ⟨-, hrun⟩ := run_of_foldLayers hacc
  constructor
  case namePrefix =>
    have hvalue := Field.combines_namePrefix.value_run (hrun .namePrefix)
    exact hvalue.trans (foldl_firstNonEmpty _)
  case nameSuffix =>
    have hvalue := Field.combines_nameSuffix.value_run (hrun .nameSuffix)
    exact hvalue.trans (foldl_firstNonEmpty _)
  case generatorOptions =>
    have hvalue := Field.combines_generatorOptions.value_run (hrun .generatorOptions)
    rw [foldl_or, List.findSome?_map] at hvalue
    exact hvalue
  case commonLabels =>
    have hvalue := Field.combines_commonLabels.value_run (hrun .commonLabels)
    show Dict.LastOf (acc.cell .commonLabels).value _
    rw [hvalue]
    exact lastOf_foldl_merge _
  case commonAnnotations =>
    have hvalue := Field.combines_commonAnnotations.value_run (hrun .commonAnnotations)
    show Dict.LastOf (acc.cell .commonAnnotations).value _
    rw [hvalue]
    exact lastOf_foldl_merge _
  case nameSpace =>
    have hvalue := Field.combines_nameSpace.value_run (hrun .nameSpace)
    have hfolded : acc.fragment.nameSpace = _ := hvalue.trans (foldl_firstNonEmpty _)
    show nameSpace d parameters acc.fragment.nameSpace = _
    rw [hfolded]
    exact nameSpace_eq d parameters _

/-- The base is not taken apart here, and the last parameter is empty. -/
theorem merge_decided_of_whole_base :
    let base : Layer := ⟨.ofString "app/base", { namePrefix := "b-", nameSpace := "base" }⟩
    let overlays : List Layer := [
      ⟨.ofString "app/x",
        { bases := some ["../base"], nameSuffix := "-x"
          commonLabels := Dict.ofList [("a", "1"), ("b", "1")] }⟩,
      ⟨.ofString "app/y",
        { bases := some ["../base"], namePrefix := "y-", nameSuffix := "-y"
          commonLabels := Dict.ofList [("b", "2")], generatorOptions := some {} }⟩]
    let parameters : List Parameter := [⟨"namespace", "p"⟩, ⟨"namespace", ""⟩]
    ∃ f, merge { nameSpace := "d" } (.ofString "app") base overlays parameters = .ok f ∧
      (f.namePrefix = "y-" ∧ f.nameSuffix = "-x" ∧ f.nameSpace = "d") ∧
      f.commonLabels = Dict.ofList [("a", "1"), ("b", "2")] ∧
      Decided { nameSpace := "d" } (base :: overlays) parameters f := by
  intro base overlays parameters
  have hmerge : merge { nameSpace := "d" } (.ofString "app")
      ⟨.ofString "app/base", { namePrefix := "b-", nameSpace := "base" }⟩ [
        ⟨.ofString "app/x",
          { bases := some ["../base"], nameSuffix := "-x"
            commonLabels := Dict.ofList [("a", "1"), ("b", "1")] }⟩,
        ⟨.ofString "app/y",
          { bases := some ["../base"], namePrefix := "y-", nameSuffix := "-y"
            commonLabels := Dict.ofList [("b", "2")], generatorOptions := some {} }⟩]
      [⟨"namespace", "p"⟩, ⟨"namespace", ""⟩] =
      .ok { Fragment.blank with
        bases := some ["base"], namePrefix := "y-", nameSuffix := "-x", nameSpace := "d"
        commonLabels := Dict.ofList [("a", "1"), ("b", "2")], generatorOptions := some {} } := by
    decide +kernel
  exact ⟨_, hmerge, ⟨rfl, rfl, rfl⟩, rfl, merge_decided hmerge⟩

end Component
end LayeredConfig
