/-
Dictionaries after values are put into them: their keys, and what becomes of a dictionary that is
put into an empty one. A dictionary is settled by what is found in it (`ext_find?`).
-/
import LayeredConfig.Dict
import Mathlib.Data.List.Sort

namespace LayeredConfig
namespace Dict

variable {α : Type}

theorem mem_keys_put {key other : String} {value : α} {l : List (String × α)} :
    other ∈ (put key value l).map (·.1) ↔ other = key ∨ other ∈ l.map (·.1) := by
  induction l with
  | nil => simp [put]
  | cons e rest ih =>
    unfold put
    by_cases hlt : key < e.1
    · rw [if_pos hlt, List.map_cons, List.mem_cons]
    · rw [if_neg hlt]
      by_cases heq : key = e.1
      · rw [if_pos heq]
        simp [heq]
      · rw [if_neg heq, List.map_cons, List.mem_cons, ih, List.map_cons, List.mem_cons]
        exact or_left_comm

theorem mem_keys_insert {d : Dict α} {key other : String} {value : α} :
    other ∈ (d.insert key value).keys ↔ other = key ∨ other ∈ d.keys :=
  mem_keys_put

theorem mem_keys_foldl_insert {l : List (String × α)} {d : Dict α} {key : String} :
    key ∈ (l.foldl (fun d e => d.insert e.1 e.2) d).keys ↔ key ∈ d.keys ∨ key ∈ l.map (·.1) := by
  induction l generalizing d with
  | nil => simp
  | cons e rest ih =>
    rw [List.foldl_cons, ih, mem_keys_insert, List.map_cons, List.mem_cons,
      or_comm (a := key = e.1), or_assoc]

theorem mem_keys_merge {d more : Dict α} {key : String} :
    key ∈ (d.merge more).keys ↔ key ∈ d.keys ∨ key ∈ more.keys := mem_keys_foldl_insert

theorem mem_keys_ofList {l : List (String × α)} {key : String} :
    key ∈ (ofList l).keys ↔ key ∈ l.map (·.1) := by
  rw [ofList, mem_keys_foldl_insert]
  exact or_iff_right List.not_mem_nil

theorem mem_of_mem_foldl_insert {l : List (String × α)} {d : Dict α} {e : String × α}
    (h : e ∈ (l.foldl (fun d e => d.insert e.1 e.2) d).entries) : e ∈ d.entries ∨ e ∈ l := by
  induction l generalizing d with
  | nil => exact .inl h
  | cons x rest ih =>
    rcases ih h with h | h
    · rcases mem_put h with rfl | h
      · exact .inr List.mem_cons_self
      · exact .inl h
    · exact .inr (List.mem_cons_of_mem x h)

theorem mem_of_mem_ofList {l : List (String × α)} {e : String × α}
    (h : e ∈ (ofList l).entries) : e ∈ l :=
  (mem_of_mem_foldl_insert h).resolve_left List.not_mem_nil

theorem sorted_keys (d : Dict α) : d.keys.Pairwise (· < ·) := List.pairwise_map.2 d.sorted

/-- The keys are in order, so it does not matter how they got there. -/
theorem keys_eq_of_mem_iff {β : Type} {d : Dict α} {e : Dict β}
    (h : ∀ key, key ∈ d.keys ↔ key ∈ e.keys) : d.keys = e.keys := by
  have hperm := (List.perm_ext_iff_of_nodup (d.sorted_keys.imp String.ne_of_lt)
    (e.sorted_keys.imp String.ne_of_lt)).2 h
  refine hperm.eq_of_pairwise ?_ d.sorted_keys e.sorted_keys
  exact fun a b _ _ hab hba => absurd hba (String.lt_asymm hab)

/-! ## Putting a whole dictionary into another one -/

theorem put_of_lt {key : String} (value : α) {l : List (String × α)} (h : ∀ e ∈ l, e.1 < key) :
    put key value l = l ++ [(key, value)] := by
  induction l with
  | nil => rfl
  | cons e rest ih =>
    have hlt : e.1 < key := h e List.mem_cons_self
    have hnot : ¬ key < e.1 := String.lt_asymm hlt
    have hne : key ≠ e.1 := fun heq => String.lt_irrefl key (heq ▸ hlt)
    have hrest : put key value rest = rest ++ [(key, value)] :=
      ih fun e' he' => h e' (List.mem_cons_of_mem e he')
    rw [put, if_neg hnot, if_neg hne, hrest, List.cons_append]

theorem ext_entries {d d' : Dict α} (h : d.entries = d'.entries) : d = d' := by
  cases d
  cases d'
  rw [mk.injEq]
  exact h

theorem empty_merge (d : Dict α) : empty.merge d = d := by
  -- The entries come in key order, so each goes to the end.
  have hfold : ∀ (l : List (String × α)) (d : Dict α),
      (d.entries ++ l).Pairwise (fun a b => a.1 < b.1) →
        (l.foldl (fun d e => d.insert e.1 e.2) d).entries = d.entries ++ l := by
    intro l
    induction l with
    | nil =>
      intro d _
      exact (List.append_nil _).symm
    | cons e rest ih =>
      intro d hsorted
      have hlt : ∀ a ∈ d.entries, a.1 < e.1 := fun a ha =>
        (List.pairwise_append.1 hsorted).2.2 a ha e List.mem_cons_self
      have hinsert : (d.insert e.1 e.2).entries = d.entries ++ [e] := put_of_lt e.2 hlt
      have hsplit : d.entries ++ e :: rest = (d.insert e.1 e.2).entries ++ rest := by
        rw [hinsert, List.append_assoc]
        rfl
      rw [List.foldl_cons, hsplit]
      rw [hsplit] at hsorted
      exact ih _ hsorted
  exact ext_entries (hfold d.entries empty d.sorted)

/-! ## What is found -/

theorem lookup_filter {β : Type} {p : String × β → Bool} {key : String}
    (h : ∀ value, p (key, value) = true) (l : List (String × β)) :
    (l.filter p).lookup key = l.lookup key := by
  induction l with
  | nil => rfl
  | cons e l ih =>
    obtain ⟨k, value⟩ := e
    rw [List.filter_cons]
    rcases eq_or_ne_beq key k with ⟨rfl, -⟩ | ⟨-, hb⟩
    · rw [if_pos (h value), List.lookup_cons_self, List.lookup_cons_self]
    · split
      · rw [List.lookup_cons, List.lookup_cons, hb, ih]
      · rw [List.lookup_cons, hb, ih]

theorem find?_eq_some_iff {d : Dict α} {key : String} {value : α} :
    d.find? key = some value ↔ (key, value) ∈ d.entries := by
  obtain ⟨l, h⟩ := d
  show l.lookup key = some value ↔ (key, value) ∈ l
  induction l with
  | nil => simp
  | cons e rest ih =>
    obtain ⟨k, v⟩ := e
    obtain ⟨hfirst, hrest⟩ := List.pairwise_cons.1 h
    rw [List.lookup_cons, List.mem_cons]
    rcases eq_or_ne_beq key k with ⟨rfl, hb⟩ | ⟨hne, hb⟩
    · have hnot : (key, value) ∉ rest := fun hmem => String.lt_irrefl key (hfirst _ hmem)
      simp [hnot, eq_comm]
    · simp [hb, hne, ih hrest]

theorem mem_keys_iff_find? {d : Dict α} {key : String} :
    key ∈ d.keys ↔ (d.find? key).isSome := by
  rw [keys, List.mem_map, Option.isSome_iff_exists]
  constructor
  · rintro ⟨e, he, rfl⟩
    exact ⟨e.2, find?_eq_some_iff.2 he⟩
  · rintro ⟨v, hv⟩
    exact ⟨(key, v), find?_eq_some_iff.1 hv, rfl⟩

/-- A dictionary is what is found in it. -/
theorem ext_find? {d d' : Dict α} (h : ∀ key, d'.find? key = d.find? key) : d' = d := by
  have hmem : ∀ e, e ∈ d'.entries ↔ e ∈ d.entries := fun (key, value) => by
    rw [← find?_eq_some_iff, ← find?_eq_some_iff, h]
  have hnodup (d : Dict α) : d.entries.Nodup := by
    refine d.sorted.imp fun {a b} hlt heq => ?_
    rw [heq] at hlt
    exact String.lt_irrefl b.1 hlt
  have hperm := (List.perm_ext_iff_of_nodup (hnodup d') (hnodup d)).2 hmem
  refine ext_entries (hperm.eq_of_pairwise ?_ d'.sorted d.sorted)
  exact fun a b _ _ hab hba => absurd hba (String.lt_asymm hab)

/-- Of two dictionaries put together, the one put in counts. -/
theorem find?_merge (d more : Dict α) (key : String) :
    (d.merge more).find? key = (more.find? key).or (d.find? key) := by
  suffices h : ∀ (l : List (String × α)) (d : Dict α), l.Pairwise (fun a b => a.1 < b.1) →
      (l.foldl (fun d e => d.insert e.1 e.2) d).find? key = (l.lookup key).or (d.find? key) from
    h more.entries d more.sorted
  intro l
  induction l with
  | nil =>
    intro d _
    rfl
  | cons e l ih =>
    intro d hsorted
    obtain ⟨hfirst, hrest⟩ := List.pairwise_cons.1 hsorted
    obtain ⟨k, v⟩ := e
    rw [List.foldl_cons, ih _ hrest, find?_insert, List.lookup_cons]
    rcases eq_or_ne_beq key k with ⟨rfl, hb⟩ | ⟨hne, hb⟩
    -- The keys are in order, so this one does not come again.
    · have hnone : l.lookup key = none := by
        rw [List.lookup_eq_none_iff]
        intro p hp
        have hlt : key < p.1 := hfirst p hp
        exact (eq_or_ne_beq key p.1).elim (fun h => absurd (h.1 ▸ hlt) (String.lt_irrefl _))
          fun h => by simpa using h.2
      simp [hnone]
    · simp [hb, hne]

theorem merge_merge_self (d more : Dict α) : (d.merge more).merge more = d.merge more := by
  refine ext_find? fun key => ?_
  rw [find?_merge, find?_merge]
  cases more.find? key <;> rfl

theorem find?_foldl_merge (d : Dict α) (ds : List (Dict α)) (key : String) :
    (ds.foldl merge d).find? key = ((ds.filterMap (·.find? key)).getLast?).or (d.find? key) := by
  induction ds generalizing d with
  | nil => rfl
  | cons e ds ih =>
    rw [List.foldl_cons, ih, find?_merge, List.filterMap_cons]
    cases he : e.find? key with
    | none => rfl
    | some v =>
      rw [List.getLast?_cons]
      cases (ds.filterMap (·.find? key)).getLast? <;> rfl

end Dict
end LayeredConfig
