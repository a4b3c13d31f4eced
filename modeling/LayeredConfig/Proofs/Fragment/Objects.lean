/-
The objects in a fragment that have keys beside their fields.

An object is sound if it can be told from its fields what it keeps beside them: none of its
unsupported keys is the name of a field. Every object that is read from a file is sound
(`Fragment.sound_of_ofNode`).
-/
import LayeredConfig.Proofs.Fold.Cell
import LayeredConfig.Proofs.Fragment.Fields

namespace LayeredConfig

open Yaml (Value Node Record Kept Error)

/-! ## Objects -/

/-- The names of an object's fields, and what it keeps beside them. -/
structure Object where
  names : List String
  unsupported : Dict Value

/-- Whether no unsupported key is the name of a field. The values under these keys are such as can
be read there. -/
def Object.Sound (o : Object) : Prop := ∀ e ∈ o.unsupported.entries, e.1 ∉ o.names ∧ e.2.isPlain

namespace Object

variable {o : Object} {names : List String} {n : Node} {d : Dict Value}

theorem sound_of_kept (h : Kept names n d) : Sound ⟨names, d⟩ := fun e he =>
  ⟨((h.mem_keys e.1).1 (List.mem_map_of_mem he)).2, h.plain e he⟩

theorem sound_of_keys_eq_nil (h : o.unsupported.keys = []) : o.Sound := by
  intro e he
  rw [List.map_eq_nil_iff.1 h] at he
  exact absurd he List.not_mem_nil

end Object

namespace Generator

def objects (g : Generator) : List Object := [⟨fieldNames, g.unsupported⟩]

end Generator

namespace SecretGenerator

def objects (s : SecretGenerator) : List Object := [⟨fieldNames, s.unsupported⟩]

end SecretGenerator

namespace GeneratorOptions

def objects (o : GeneratorOptions) : List Object := [⟨fieldNames, o.unsupported⟩]

end GeneratorOptions

namespace Image

def objects (i : Image) : List Object := [⟨fieldNames, i.unsupported⟩]

end Image

namespace Var

def objects (v : Var) : List Object :=
  [⟨fieldNames, v.unsupported⟩, ⟨ObjectRef.fieldNames, v.object.unsupported⟩] ++
    v.field.toList.map fun r => ⟨FieldRef.fieldNames, r.unsupported⟩

end Var

namespace JsonPatch

def objects (p : JsonPatch) : List Object :=
  [⟨fieldNames, p.unsupported⟩, ⟨PatchTarget.fieldNames, p.target.unsupported⟩]

end JsonPatch

/-- The objects in a field. -/
def Field.objects : (field : Field) → field.Value → List Object
  | .generatorOptions, v => v.toList.flatMap GeneratorOptions.objects
  | .jsonPatches, v => v.flatMap JsonPatch.objects
  | .images, v => v.flatMap Image.objects
  | .vars, v => v.flatMap Var.objects
  | .configMaps, v => v.flatMap Generator.objects
  | .secrets, v => v.flatMap SecretGenerator.objects
  | _, _ => []

namespace Fragment

/-- The fragment itself and the objects in its fields. -/
def objects (f : Fragment) : List Object :=
  ⟨fieldNames, f.unsupported⟩ ::
    ([.generatorOptions, .jsonPatches, .images, .vars, .configMaps, .secrets] : List Field).flatMap
      fun field => field.objects (f.get field)

def Sound (f : Fragment) : Prop := ∀ o ∈ f.objects, o.Sound

variable {n : Node} {f : Fragment}

theorem mem_objects_iff {o : Object} : o ∈ f.objects ↔
    o = ⟨fieldNames, f.unsupported⟩ ∨ ∃ field : Field, o ∈ field.objects (f.get field) := by
  rw [objects, List.mem_cons, List.mem_flatMap]
  refine or_congr_right ⟨fun ⟨field, _, h⟩ => ⟨field, h⟩, fun ⟨field, h⟩ => ⟨field, ?_, h⟩⟩
  cases field <;> first | decide | exact absurd h List.not_mem_nil

theorem forall_mem_objects_iff {P : Object → Prop} : (∀ o ∈ f.objects, P o) ↔
    P ⟨fieldNames, f.unsupported⟩ ∧
    (∀ options ∈ f.generatorOptions, ∀ o ∈ options.objects, P o) ∧
    (∀ p ∈ f.jsonPatches, ∀ o ∈ p.objects, P o) ∧ (∀ i ∈ f.images, ∀ o ∈ i.objects, P o) ∧
    (∀ v ∈ f.vars, ∀ o ∈ v.objects, P o) ∧ (∀ g ∈ f.configMaps, ∀ o ∈ g.objects, P o) ∧
    ∀ s ∈ f.secrets, ∀ o ∈ s.objects, P o := by
  simp only [objects, List.flatMap_cons, List.flatMap_nil, List.append_nil, Field.objects, get,
    List.forall_mem_cons, List.forall_mem_append, List.forall_mem_flatMap, Option.mem_toList,
    Option.mem_def]

theorem sound_iff : f.Sound ↔ Object.Sound ⟨fieldNames, f.unsupported⟩ ∧
    ∀ field : Field, ∀ o ∈ field.objects (f.get field), o.Sound := by
  simp only [Sound, mem_objects_iff, or_imp, forall_and, forall_eq, forall_exists_index]
  exact and_congr_right fun _ => forall_comm

end Fragment

/-! ## Objects that are read -/

section

variable {n : Node}

theorem JsonPatch.sound_of_ofNode {p : JsonPatch} (h : JsonPatch.ofNode n = .ok p) :
    ∀ o ∈ p.objects, o.Sound := by
  obtain ⟨r, hr, htarget, -, -⟩ := JsonPatch.ofNode_eq_ok_iff.1 h
  have htarget := Record.required_eq_ok hr htarget (by decide)
  exact List.forall_mem_cons.2 ⟨Object.sound_of_kept (JsonPatch.kept h),
    List.forall_mem_singleton.2 (Object.sound_of_kept (PatchTarget.kept htarget))⟩

theorem Var.sound_of_ofNode {v : Var} (h : Var.ofNode n = .ok v) : ∀ o ∈ v.objects, o.Sound := by
  obtain ⟨r, hr, -, hobject, hfield, -⟩ := Var.ofNode_eq_ok_iff.1 h
  have hobject := Record.required_eq_ok hr hobject (by decide)
  have hfield := Record.get?_eq_ok hr hfield (by decide)
  refine List.forall_mem_append.2 ⟨List.forall_mem_cons.2 ⟨Object.sound_of_kept (Var.kept h),
    List.forall_mem_singleton.2 (Object.sound_of_kept (ObjectRef.kept hobject))⟩, ?_⟩
  rcases Node.optional_eq_ok hfield with ⟨hnone, -⟩ | ⟨ref, hsome, href⟩
  · simp [hnone]
  · rw [hsome]
    exact List.forall_mem_singleton.2 (Object.sound_of_kept (FieldRef.kept href))

/-- If one item is read soundly, a list is. -/
theorem sound_of_list {α : Type} {read : Node → Except Error α} {objects : α → List Object}
    {l : List α} (hread : ∀ n a, read n = .ok a → ∀ o ∈ objects a, o.Sound)
    (h : Node.list read n = .ok l) : ∀ o ∈ l.flatMap objects, o.Sound := by
  intro o ho
  obtain ⟨a, ha, ho⟩ := List.mem_flatMap.1 ho
  obtain ⟨items, -, hl⟩ := bind_eq_ok_iff.1 h
  obtain ⟨item, -, hitem⟩ := exists_of_mem_mapM hl ha
  exact hread item a hitem o ho

theorem Fragment.sound_of_ofNode {f : Fragment} (h : Fragment.ofNode n = .ok f) : f.Sound := by
  obtain ⟨r, hr, -, -, -, -, -, -, -, -, hpatches, himages, hvars, -, -, -, hmaps, hsecrets,
    hoptions, -, -⟩ := Fragment.ofNode_eq_ok_iff.1 h
  have hsingle {names : List String} {n : Node} {d : Dict Value} (hd : Kept names n d) :
      ∀ o ∈ [Object.mk names d], o.Sound :=
    List.forall_mem_singleton.2 (Object.sound_of_kept hd)
  refine Fragment.sound_iff.2 ⟨Object.sound_of_kept (Fragment.kept h), fun field => ?_⟩
  cases field with
  | jsonPatches =>
    exact sound_of_list (fun _ _ => JsonPatch.sound_of_ofNode)
      (Record.getD_eq_ok hr hpatches (by decide) rfl)
  | images =>
    exact sound_of_list (fun _ _ h => hsingle (Image.kept h))
      (Record.getD_eq_ok hr himages (by decide) rfl)
  | vars =>
    exact sound_of_list (fun _ _ => Var.sound_of_ofNode)
      (Record.getD_eq_ok hr hvars (by decide) rfl)
  | configMaps =>
    exact sound_of_list (fun _ _ h => hsingle (Generator.kept h))
      (Record.getD_eq_ok hr hmaps (by decide) rfl)
  | secrets =>
    exact sound_of_list (fun _ _ h => hsingle (SecretGenerator.kept h))
      (Record.getD_eq_ok hr hsecrets (by decide) rfl)
  | generatorOptions =>
    show ∀ o ∈ f.generatorOptions.toList.flatMap GeneratorOptions.objects, o.Sound
    rcases Node.optional_eq_ok (Record.get?_eq_ok hr hoptions (by decide)) with
      ⟨hnone, -⟩ | ⟨options, hsome, hread⟩
    · simp [hnone]
    · rw [hsome]
      exact hsingle (GeneratorOptions.kept hread)
  | _ => exact fun o ho => absurd ho List.not_mem_nil

end
end LayeredConfig
