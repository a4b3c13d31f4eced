/-
Which values have a written form.

A text as a key is never in the way of writing, so a mapping with such keys can be written if all
of its values can (`Value.isWritable_ofEntries_iff`).
-/
import LayeredConfig.Proofs.Yaml.Slots
import LayeredConfig.Yaml.Printer

namespace LayeredConfig
namespace Yaml
namespace Value

theorem exists_print_iff {v : Value} : (∃ s, v.print = .ok s) ↔ v.isWritable false := by
  rw [print]
  cases v.isWritable false <;> simp

theorem entriesWritable_iff {entries : List (String × Value)} :
    isWritable.entriesWritable (entries.map fun (k, v) => (.string k, v)) ↔
      ∀ e ∈ entries, e.2.isWritable false := by
  induction entries with
  | nil => simp [isWritable.entriesWritable]
  | cons e entries ih => simp [isWritable.entriesWritable, isWritable, ih]

theorem isWritable_ofEntries_iff {entries : List (String × Value)} :
    (ofEntries entries).isWritable false ↔ ∀ e ∈ entries, e.2.isWritable false := by
  rw [← entriesWritable_iff]
  -- A single entry is written as any other, since a text is not taken for a tag.
  match entries with
  | [] => exact Iff.rfl
  | [e] => simp [ofEntries, isWritable, isWritable.entriesWritable, isTagLike]
  | _ :: _ :: _ => exact Iff.rfl

@[simp]
theorem isWritable_string (s : String) : (string s).isWritable false = true := rfl

@[simp]
theorem isWritable_bool (b : Bool) : (bool b).isWritable false = true := rfl

@[simp]
theorem isWritable_seq_map_iff {α : Type} {write : α → Value} {l : List α} :
    (seq (l.map write)).isWritable false ↔ ∀ a ∈ l, (write a).isWritable false := by
  rw [isWritable]
  induction l with
  | nil => simp [isWritable.itemsWritable]
  | cons a l ih => simp [isWritable.itemsWritable, ih]

@[simp]
theorem isWritable_texts (l : List String) : (texts l).isWritable false = true :=
  isWritable_seq_map_iff.2 fun _ _ => rfl

@[simp]
theorem isWritable_ofTextDict (d : Dict String) : (ofTextDict d).isWritable false = true := by
  have hentries : ofTextDict d = ofEntries (d.entries.map fun e => (e.1, string e.2)) := by
    rw [ofEntries, List.map_map]
    rfl
  rw [hentries]
  exact isWritable_ofEntries_iff.2 (List.forall_mem_map.2 fun _ _ => rfl)

/-- Whether all values of a dictionary have a written form. -/
def AllWritable (d : Dict Value) : Prop := ∀ e ∈ d.entries, e.2.isWritable false

theorem isWritable_slots_iff {slots : Slots} {d : Dict Value} :
    (ofEntries (slots.entries ++ d.entries)).isWritable false ↔
      (∀ e ∈ slots, ∀ v ∈ e.2, v.isWritable false) ∧ AllWritable d := by
  rw [isWritable_ofEntries_iff, List.forall_mem_append,
    Slots.forall_mem_entries_iff (P := fun v => v.isWritable false), AllWritable]

end Value
end Yaml
end LayeredConfig
