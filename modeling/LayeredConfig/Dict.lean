/-
Dictionaries with text keys, kept in key order. The order is part of what is written to disk, and
it makes two dictionaries with the same content equal: the order in which the content was put in
leaves no trace.
-/

namespace LayeredConfig

/-- A dictionary: entries with strictly ascending keys. -/
structure Dict (α : Type _) where
  entries : List (String × α)
  sorted : entries.Pairwise fun a b => a.1 < b.1
deriving Repr, DecidableEq

namespace Dict

variable {α : Type _}

def empty : Dict α := ⟨[], .nil⟩

instance : Inhabited (Dict α) := ⟨empty⟩
instance : EmptyCollection (Dict α) := ⟨empty⟩
instance [BEq α] : BEq (Dict α) := ⟨fun a b => a.entries == b.entries⟩

def isEmpty (d : Dict α) : Bool := d.entries.isEmpty

def keys (d : Dict α) : List String := d.entries.map (·.1)

def find? (d : Dict α) (key : String) : Option α := d.entries.lookup key

/-! ## Putting a value under a key -/

/-- Puts a value where the order wants its key, in place of the value that was there. -/
def put (key : String) (value : α) : List (String × α) → List (String × α)
  | [] => [(key, value)]
  | e :: rest =>
    if key < e.1 then (key, value) :: e :: rest
    else if key = e.1 then (key, value) :: rest
    else e :: put key value rest

theorem mem_put {key : String} {value : α} {l : List (String × α)} {e : String × α}
    (h : e ∈ put key value l) : e = (key, value) ∨ e ∈ l := by
  induction l with
  | nil => simpa [put] using h
  | cons x rest ih =>
    simp only [put] at h
    split at h
    · rcases List.mem_cons.1 h with h | h
      · exact .inl h
      · exact .inr h
    · split at h
      · rcases List.mem_cons.1 h with h | h
        · exact .inl h
        · exact .inr (List.mem_cons_of_mem _ h)
      · rcases List.mem_cons.1 h with h | h
        · exact .inr (h ▸ List.mem_cons_self)
        · rcases ih h with h | h
          · exact .inl h
          · exact .inr (List.mem_cons_of_mem _ h)

theorem sorted_put (key : String) (value : α) {l : List (String × α)}
    (h : l.Pairwise fun a b => a.1 < b.1) : (put key value l).Pairwise fun a b => a.1 < b.1 := by
  induction l with
  | nil => simp [put]
  | cons x rest ih =>
    obtain ⟨hx, hrest⟩ := List.pairwise_cons.1 h
    simp only [put]
    split
    · rename_i hlt
      refine List.pairwise_cons.2 ⟨fun e he => ?_, h⟩
      rcases List.mem_cons.1 he with rfl | he
      · exact hlt
      · exact String.lt_trans hlt (hx e he)
    · split
      · rename_i heq
        exact List.pairwise_cons.2 ⟨fun e he => heq ▸ hx e he, hrest⟩
      · rename_i hlt hne
        refine List.pairwise_cons.2 ⟨fun e he => ?_, ih hrest⟩
        rcases mem_put he with rfl | he
        · exact Std.lt_of_le_of_ne (String.not_lt.1 hlt) fun h => hne h.symm
        · exact hx e he

/-- The dictionary with `value` under `key`. -/
def insert (d : Dict α) (key : String) (value : α) : Dict α :=
  ⟨put key value d.entries, sorted_put key value d.sorted⟩

/-- The dictionary of a list of entries; of entries with one key the last is kept. -/
def ofList (l : List (String × α)) : Dict α := l.foldl (fun d e => d.insert e.1 e.2) empty

/-- Every entry of `more` put into `d`. -/
def merge (d more : Dict α) : Dict α := more.entries.foldl (fun d e => d.insert e.1 e.2) d

theorem eq_or_ne_beq (a b : String) : (a = b ∧ (a == b) = true) ∨ (a ≠ b ∧ (a == b) = false) := by
  by_cases h : a = b
  · exact .inl ⟨h, by simp [h]⟩
  · exact .inr ⟨h, by simp [h]⟩

/-- The value put under a key is found there, and no other key is affected. -/
theorem find?_insert (d : Dict α) (key other : String) (value : α) :
    (d.insert key value).find? other = if other = key then some value else d.find? other := by
  obtain ⟨l, h⟩ := d
  simp only [find?, insert]
  induction l with
  | nil =>
    rcases eq_or_ne_beq other key with ⟨rfl, hb⟩ | ⟨ho, hb⟩
    · simp [put]
    · simp [put, List.lookup_cons, hb, ho]
  | cons x rest ih =>
    obtain ⟨k, v⟩ := x
    have ih := ih (List.pairwise_cons.1 h).2
    simp only [put]
    split
    · rcases eq_or_ne_beq other key with ⟨rfl, hb⟩ | ⟨ho, hb⟩
      · simp
      · simp [List.lookup_cons, hb, ho]
    · split
      · rename_i heq
        subst heq
        rcases eq_or_ne_beq other key with ⟨rfl, hb⟩ | ⟨ho, hb⟩
        · simp
        · simp [List.lookup_cons, hb, ho]
      · rename_i hne
        rcases eq_or_ne_beq other k with ⟨rfl, hb⟩ | ⟨ho, hb⟩
        · simp [Ne.symm hne]
        · simp [List.lookup_cons, hb, ih]

end Dict
end LayeredConfig
