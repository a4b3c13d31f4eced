/-
Which fragments have a text.

All that a fragment writes for its fields has a written form. So it is a matter of what its objects
keep beside their fields whether the fragment can be written (`Fragment.exists_print_iff`).
-/
import LayeredConfig.Proofs.Fragment.Written
import LayeredConfig.Proofs.Yaml.Writable

namespace LayeredConfig

open Yaml (Value Slots)
open Yaml.Value (AllWritable)

@[simp]
theorem Generator.isWritable_iff {g : Generator} :
    g.toValue.isWritable false ↔ ∀ o ∈ g.objects, AllWritable o.unsupported := by
  rw [toValue, fields_eq, Value.isWritable_slots_iff]
  simp [slots, objects]

@[simp]
theorem SecretGenerator.isWritable_iff {s : SecretGenerator} :
    s.toValue.isWritable false ↔ ∀ o ∈ s.objects, AllWritable o.unsupported := by
  have hgenerator := Generator.isWritable_iff (g := s.toGenerator)
  rw [Generator.toValue, Generator.fields_eq, Value.isWritable_ofEntries_iff] at hgenerator
  rw [toValue_eq, Value.isWritable_ofEntries_iff, List.forall_mem_append, common, hgenerator,
    Slots.forall_mem_entries_iff (P := fun v => v.isWritable false)]
  simp [slots, objects, Generator.objects]

@[simp]
theorem GeneratorOptions.isWritable_iff {options : GeneratorOptions} :
    options.toValue.isWritable false ↔ ∀ o ∈ options.objects, AllWritable o.unsupported := by
  rw [toValue_eq, Value.isWritable_slots_iff]
  simp [slots, objects]

@[simp]
theorem Image.isWritable_iff {i : Image} :
    i.toValue.isWritable false ↔ ∀ o ∈ i.objects, AllWritable o.unsupported := by
  rw [toValue_eq, Value.isWritable_slots_iff]
  simp [slots, objects]

@[simp]
theorem ObjectRef.isWritable_iff {o : ObjectRef} :
    o.toValue.isWritable false ↔ AllWritable o.unsupported := by
  rw [toValue_eq, Value.isWritable_slots_iff]
  simp [slots]

@[simp]
theorem FieldRef.isWritable_iff {r : FieldRef} :
    r.toValue.isWritable false ↔ AllWritable r.unsupported := by
  rw [toValue_eq, Value.isWritable_slots_iff]
  simp [slots]

@[simp]
theorem Var.isWritable_iff {v : Var} :
    v.toValue.isWritable false ↔ ∀ o ∈ v.objects, AllWritable o.unsupported := by
  rw [toValue_eq, Value.isWritable_slots_iff, and_comm]
  simp [slots, objects]

@[simp]
theorem PatchTarget.isWritable_iff {t : PatchTarget} :
    t.toValue.isWritable false ↔ AllWritable t.unsupported := by
  rw [toValue_eq, Value.isWritable_slots_iff]
  simp [slots]

@[simp]
theorem JsonPatch.isWritable_iff {p : JsonPatch} :
    p.toValue.isWritable false ↔ ∀ o ∈ p.objects, AllWritable o.unsupported := by
  rw [toValue_eq, Value.isWritable_slots_iff]
  simp [slots, objects, and_comm]

/-- A list is left out if it is empty, but then there is nothing in the way. -/
theorem imp_forall_mem_iff {α : Type} {P : α → Prop} {l : List α} :
    (l ≠ [] → ∀ a ∈ l, P a) ↔ ∀ a ∈ l, P a :=
  ⟨fun h a ha => h (List.ne_nil_of_mem ha) a ha, fun h _ => h⟩

namespace Fragment

variable {f : Fragment}

theorem exists_print_iff :
    (∃ s, f.print = .ok s) ↔ ∀ o ∈ f.objects, AllWritable o.unsupported := by
  have hslots : (∀ e ∈ f.slots, ∀ v ∈ e.2, v.isWritable false) ↔
      (∀ p ∈ f.jsonPatches, p.toValue.isWritable false) ∧
      (∀ i ∈ f.images, i.toValue.isWritable false) ∧
      (∀ v ∈ f.vars, v.toValue.isWritable false) ∧
      (∀ g ∈ f.configMaps, g.toValue.isWritable false) ∧
      (∀ s ∈ f.secrets, s.toValue.isWritable false) ∧
      ∀ options ∈ f.generatorOptions, options.toValue.isWritable false := by
    simp [slots, imp_forall_mem_iff]
  rw [print, Value.exists_print_iff, toValue_eq, Value.isWritable_slots_iff, hslots,
    forall_mem_objects_iff]
  simp only [JsonPatch.isWritable_iff, Image.isWritable_iff, Var.isWritable_iff,
    Generator.isWritable_iff, SecretGenerator.isWritable_iff, GeneratorOptions.isWritable_iff]
  constructor
  · rintro ⟨⟨hpatches, himages, hvars, hmaps, hsecrets, hoptions⟩, hown⟩
    exact ⟨hown, hoptions, hpatches, himages, hvars, hmaps, hsecrets⟩
  · rintro ⟨hown, hoptions, hpatches, himages, hvars, hmaps, hsecrets⟩
    exact ⟨⟨hpatches, himages, hvars, hmaps, hsecrets, hoptions⟩, hown⟩

end Fragment
end LayeredConfig
