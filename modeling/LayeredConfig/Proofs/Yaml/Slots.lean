/-
Records that are read from what was written.

An object writes its fields in a fixed order, each under its name and some of them not at all, and
beside them the entries of a dictionary. Reading splits such a mapping into the same parts
(`Record.exists_spells`), so every field is found again, and so is the dictionary as long as none of
its keys is the name of a field.
-/
import LayeredConfig.Proofs.Yaml.Spelled

namespace LayeredConfig
namespace Yaml

/-! ## Slots -/

/-- The fields of an object in the order in which they are written, each with its name and with what
is written under that name, if anything is. -/
abbrev Slots := List (String × Option Value)

namespace Slots

variable {slots : Slots} {name : String} {v? : Option Value}

/-- A value that is written under a condition. -/
def onlyIf (keep : Bool) (v : Value) : Option Value := if keep then some v else none

/-- A text, unless it is empty. -/
def text (s : String) : Option Value := onlyIf (s ≠ "") (.string s)

/-- A list, unless it is empty. -/
def list {α : Type} (write : α → Value) (l : List α) : Option Value :=
  onlyIf (!l.isEmpty) (.seq (l.map write))

def texts (l : List String) : Option Value := list .string l

/-- A dictionary of texts, unless it is empty. -/
def textDict (d : Dict String) : Option Value := onlyIf (!d.isEmpty) (Value.ofTextDict d)

def names (slots : Slots) : List String := slots.map (·.1)

def entries (slots : Slots) : List (String × Value) := slots.filterMap fun e => e.2.map (e.1, ·)

theorem names_entries_sublist : (slots.entries.map (·.1)).Sublist slots.names := by
  induction slots with
  | nil => exact List.Sublist.refl _
  | cons e slots ih =>
    obtain ⟨name, v?⟩ := e
    cases v? with
    | none => exact ih.cons name
    | some v => exact ih.cons_cons name

theorem lookup_entries (hnodup : slots.names.Nodup) (h : (name, v?) ∈ slots) :
    slots.entries.lookup name = v? := by
  induction slots with
  | nil => exact absurd h List.not_mem_nil
  | cons e slots ih =>
    obtain ⟨other, w?⟩ := e
    obtain ⟨hfirst, hrest⟩ := List.nodup_cons.1 hnodup
    rcases List.mem_cons.1 h with heq | hmem
    · obtain ⟨rfl, rfl⟩ := Prod.mk.inj heq
      cases v? with
      | none =>
        show List.lookup name (entries slots) = none
        refine List.lookup_eq_none_iff.2 fun p hp => ?_
        have hname : p.1 ∈ names slots := names_entries_sublist.subset (List.mem_map_of_mem hp)
        have hne : name ≠ p.1 := by
          rintro rfl
          exact hfirst hname
        simpa using hne
      | some v => exact List.lookup_cons_self
    · have hname : name ∈ names slots := List.mem_map_of_mem hmem
      have hne : (name == other) = false := beq_false_of_ne fun heq => hfirst (heq ▸ hname)
      cases w? with
      | none => exact ih hrest hmem
      | some w =>
        show List.lookup name ((other, w) :: entries slots) = v?
        rw [List.lookup_cons, hne]
        exact ih hrest hmem

/-! ### Values in slots -/

theorem forall_mem_entries_iff {P : Value → Prop} :
    (∀ e ∈ slots.entries, P e.2) ↔ ∀ e ∈ slots, ∀ v ∈ e.2, P v := by
  constructor
  · intro h e he v hv
    exact h (e.1, v) (List.mem_filterMap.2 ⟨e, he, by rw [hv]; rfl⟩)
  · intro h e he
    obtain ⟨slot, hslot, hmap⟩ := List.mem_filterMap.1 he
    obtain ⟨v, hv, rfl⟩ := Option.map_eq_some_iff.1 hmap
    exact h slot hslot v hv

section

variable {α : Type} {v w : Value}

@[simp]
theorem onlyIf_eq_some_iff {keep : Bool} : onlyIf keep v = some w ↔ keep ∧ v = w := by
  cases keep <;> simp [onlyIf]

@[simp]
theorem text_eq_some_iff {s : String} : text s = some w ↔ s ≠ "" ∧ .string s = w := by
  simp [text]

@[simp]
theorem list_eq_some_iff {write : α → Value} {l : List α} :
    list write l = some w ↔ l ≠ [] ∧ .seq (l.map write) = w := by
  simp [list]

@[simp]
theorem texts_eq_some_iff {l : List String} : texts l = some w ↔ l ≠ [] ∧ Value.texts l = w :=
  list_eq_some_iff

@[simp]
theorem textDict_eq_some_iff {d : Dict String} :
    textDict d = some w ↔ d.isEmpty = false ∧ Value.ofTextDict d = w := by
  simp [textDict]

end

/-! ### Slots beside a dictionary -/

section

variable {d : Dict Value} (hd : ∀ key ∈ d.keys, key ∉ slots.names)

include hd

/-- Among the entries of the slots and of a dictionary, those of the slots are told by their
names. -/
theorem filter_mem_names :
    (slots.entries ++ d.entries).filter (·.1 ∈ slots.names) = slots.entries := by
  have hslots : ∀ e ∈ slots.entries, e.1 ∈ slots.names := fun e he =>
    names_entries_sublist.subset (List.mem_map_of_mem he)
  have hdict : ∀ e ∈ d.entries, e.1 ∉ slots.names := fun e he => hd e.1 (List.mem_map_of_mem he)
  rw [List.filter_append, List.filter_eq_self.2 (by simpa using hslots),
    List.filter_eq_nil_iff.2 (by simpa using hdict), List.append_nil]

theorem filter_not_mem_names :
    (slots.entries ++ d.entries).filter (·.1 ∉ slots.names) = d.entries := by
  have hslots : ∀ e ∈ slots.entries, e.1 ∈ slots.names := fun e he =>
    names_entries_sublist.subset (List.mem_map_of_mem he)
  have hdict : ∀ e ∈ d.entries, e.1 ∉ slots.names := fun e he => hd e.1 (List.mem_map_of_mem he)
  rw [List.filter_append, List.filter_eq_nil_iff.2 (by simpa using hslots),
    List.filter_eq_self.2 (by simpa using hdict), List.nil_append]

end

end Slots

/-! ## Writing slots -/

namespace Value

/-- The mapping with the given entries. -/
def ofEntries (entries : List (String × Value)) : Value :=
  .map (entries.map fun (k, v) => (.string k, v))

/-- The fields that are in a slot. -/
def Fields.slot (name : String) (v? : Option Value) : Fields := optional name id v?

namespace Fields

/-- The fields that are in the slots, one after the other. -/
def ofSlots (slots : Slots) : Fields := slots.flatMap fun e => slot e.1 e.2

@[simp]
theorem ofSlots_nil : ofSlots [] = [] := rfl

@[simp]
theorem ofSlots_cons (name : String) (v? : Option Value) (slots : Slots) :
    ofSlots ((name, v?) :: slots) = slot name v? ++ ofSlots slots := List.flatMap_cons

/-! Every way to write a field fills a slot. -/

variable {α : Type} (name : String)

@[simp]
theorem always_eq_slot (v : Value) : always name v = slot name (some v) := rfl

@[simp]
theorem onlyIf_eq_slot (keep : Bool) (v : Value) :
    onlyIf keep name v = slot name (Slots.onlyIf keep v) := by
  cases keep <;> rfl

@[simp]
theorem optional_eq_slot (write : α → Value) (o : Option α) :
    optional name write o = slot name (o.map write) := by
  cases o <;> rfl

@[simp]
theorem optionalText_eq_slot (o : Option String) :
    optionalText name o = slot name (o.map .string) := optional_eq_slot name .string o

@[simp]
theorem text_eq_slot (s : String) : text name s = slot name (Slots.text s) :=
  onlyIf_eq_slot name _ _

@[simp]
theorem list_eq_slot (write : α → Value) (l : List α) :
    list name write l = slot name (Slots.list write l) := onlyIf_eq_slot name _ _

@[simp]
theorem textList_eq_slot (l : List String) : textList name l = slot name (Slots.texts l) :=
  list_eq_slot name .string l

@[simp]
theorem textDict_eq_slot (d : Dict String) : textDict name d = slot name (Slots.textDict d) :=
  onlyIf_eq_slot name _ _

end Fields

theorem map_ofSlots (slots : Slots) (d : Dict Value) :
    .map (Fields.ofSlots slots ++ ofDict d) = ofEntries (slots.entries ++ d.entries) := by
  rw [ofEntries, List.map_append]
  refine congrArg (fun l => Value.map (l ++ _)) ?_
  induction slots with
  | nil => rfl
  | cons e slots ih =>
    obtain ⟨name, v?⟩ := e
    rw [Fields.ofSlots_cons]
    cases v? with
    | none => exact ih
    | some v => exact congrArg (List.cons _) ih

end Value

/-! ## Fields that spell entries -/

/-- Fields with the names of some entries and with nodes that spell their values. -/
def FieldsSpell : List (String × Node) → List (String × Value) → Prop :=
  List.Forall₂ fun field e => field.1 = e.1 ∧ field.2.Spells e.2

namespace FieldsSpell

variable {n : Node} {fields : List (String × Node)} {entries : List (String × Value)}
variable {names : List String}

theorem of_node (h : n.Spells (.ofEntries entries)) :
    ∃ fields, n.fields = .ok fields ∧ FieldsSpell fields entries := by
  obtain ⟨nodes, rfl, hall⟩ := h.exists_map
  rw [List.forall₂_map_right_iff] at hall
  clear h
  show ∃ fields, (nodes.mapM fun e => return (← e.1.text, e.2) :
    Except Error (List (String × Node))) = .ok fields ∧ FieldsSpell fields entries
  induction hall with
  | nil => exact ⟨[], rfl, .nil⟩
  | @cons node e _ _ he _ ih =>
    obtain ⟨fields, hfields, hspell⟩ := ih
    have hk : node.1.text = .ok e.1 := Node.Spells.text he.1
    refine ⟨(e.1, node.2) :: fields, ?_, .cons ⟨rfl, he.2⟩ hspell⟩
    rw [mapM_ok_cons (b := (e.1, node.2)), hfields]
    · rfl
    · show (node.1.text >>= fun k => Except.ok (k, node.2)) = _
      rw [hk]
      rfl

theorem filter (h : FieldsSpell fields entries) (p : String → Bool) :
    FieldsSpell (fields.filter (p ·.1)) (entries.filter (p ·.1)) := by
  refine List.rel_filter (fun field e he => ?_) h
  show p field.1 = true ↔ p e.1 = true
  rw [he.1]

theorem keys_eq (h : FieldsSpell fields entries) : fields.map (·.1) = entries.map (·.1) := by
  rw [← List.forall₂_eq_eq_eq, List.forall₂_map_left_iff, List.forall₂_map_right_iff]
  exact h.imp fun _ _ he => he.1

theorem lookup (h : FieldsSpell fields entries) (name : String) :
    Option.Rel Node.Spells (fields.lookup name) (entries.lookup name) := by
  induction h with
  | nil => exact .none
  | @cons field e _ _ he _ ih =>
    obtain ⟨k, n⟩ := field
    obtain ⟨rfl, hn⟩ := he
    rw [List.lookup_cons, List.lookup_cons]
    cases hb : name == e.1 with
    | true => exact .some hn
    | false => exact ih

/-- Fields that are taken as values give the entries that they spell. -/
theorem values (h : FieldsSpell fields entries) (hplain : ∀ e ∈ entries, e.2.isPlain) :
    (fields.mapM fun (k, n) => return (k, ← Value.ofNode false n) :
      Except Error (List (String × Value))) = .ok entries := by
  refine mapM_eq_ok_iff.2 ?_
  induction h with
  | nil => exact .nil
  | @cons field e _ _ he _ ih =>
    obtain ⟨k, n⟩ := field
    obtain ⟨rfl, hn⟩ := he
    obtain ⟨he, hplain⟩ := List.forall_mem_cons.1 hplain
    refine .cons ?_ (ih hplain)
    show (Value.ofNode false n >>= fun v => Except.ok (e.1, v)) = .ok e
    rw [Node.Spells.value n hn he]
    rfl

end FieldsSpell

/-! ## Records -/

namespace Record

theorem repeated?_eq_none {names : List String} (h : names.Nodup) : repeated? names = none := by
  induction names with
  | nil => rfl
  | cons name names ih =>
    obtain ⟨hfirst, hrest⟩ := List.nodup_cons.1 h
    rw [repeated?, if_neg hfirst]
    exact ih hrest

/-- Whether a record has the slots of an object as its fields, and beside them some entries. -/
structure Spells (r : Record) (slots : Slots) (others : List (String × Value)) : Prop where
  nodup : slots.names.Nodup
  known : FieldsSpell r.known slots.entries
  others : FieldsSpell r.others others

variable {n : Node} {slots : Slots} {names : List String} {entries others : List (String × Value)}

theorem exists_spells (hn : n.Spells (.ofEntries entries)) (hnodup : slots.names.Nodup)
    (hknown : entries.filter (·.1 ∈ names) = slots.entries)
    (hothers : entries.filter (·.1 ∉ names) = others) :
    ∃ r, ofNode names n = .ok r ∧ r.Spells slots others := by
  obtain ⟨fields, hfields, hspell⟩ := FieldsSpell.of_node hn
  have hslots := hknown ▸ hspell.filter (· ∈ names)
  have hrep : repeated? ((fields.filter (·.1 ∈ names)).map (·.1)) = none := by
    rw [hslots.keys_eq]
    exact repeated?_eq_none (hnodup.sublist Slots.names_entries_sublist)
  refine ⟨⟨fields.filter (·.1 ∈ names), fields.filter (·.1 ∉ names)⟩, ?_, hnodup, hslots, ?_⟩
  · show (n.fields >>= ofFields names) = _
    rw [hfields, ok_bind, ofFields, hrep]
  · exact hothers ▸ hspell.filter (· ∉ names)

/-- A record reads the slots of an object and the dictionary that was written after them. -/
theorem exists_spells_of_dict {d : Dict Value}
    (hn : n.Spells (.ofEntries (slots.entries ++ d.entries))) (hnodup : slots.names.Nodup)
    (hd : ∀ key ∈ d.keys, key ∉ slots.names) :
    ∃ r, ofNode slots.names n = .ok r ∧ r.Spells slots d.entries :=
  exists_spells hn hnodup (Slots.filter_mem_names hd) (Slots.filter_not_mem_names hd)

namespace Spells

variable {r : Record} {name : String} {α : Type} {read : Node → Except Error α} {a : α}
variable {v? : Option Value}

theorem lookup (h : r.Spells slots others) (hslot : (name, v?) ∈ slots) :
    Option.Rel Node.Spells (r.known.lookup name) v? :=
  Slots.lookup_entries h.nodup hslot ▸ h.known.lookup name

theorem required {v : Value} (h : r.Spells slots others) (hslot : (name, some v) ∈ slots)
    (hread : ∀ m : Node, m.Spells v → read m = .ok a) : r.required name read = .ok a := by
  have hrel := h.lookup hslot
  rw [Record.required]
  cases hm : r.known.lookup name with
  | none =>
    rw [hm] at hrel
    exact absurd hrel nofun
  | some m =>
    rw [hm] at hrel
    obtain ⟨hm⟩ := hrel
    exact hread m hm

theorem getD {default : α} (h : r.Spells slots others) (hslot : (name, v?) ∈ slots)
    (hread : ∀ v ∈ v?, ∀ m : Node, m.Spells v → read m = .ok a) (hnone : v? = none → a = default) :
    r.getD name default read = .ok a := by
  have hrel := h.lookup hslot
  rw [Record.getD]
  cases hm : r.known.lookup name with
  | none =>
    rw [hm] at hrel
    cases hrel
    rw [hnone rfl]
  | some m =>
    rw [hm] at hrel
    obtain ⟨hm⟩ := hrel
    exact hread _ rfl m hm

theorem get? {write : α → Value} {o : Option α} (h : r.Spells slots others)
    (hslot : (name, o.map write) ∈ slots)
    (hread : ∀ a ∈ o, ∀ m : Node, m.Spells (write a) → m.isNothing = .ok false ∧ read m = .ok a) :
    r.get? name read = .ok o := by
  refine h.getD hslot ?_ ?_
  · intro v hv m hm
    obtain ⟨a, rfl, rfl⟩ := Option.map_eq_some_iff.1 hv
    obtain ⟨hnothing, ha⟩ := hread a rfl m hm
    rw [Node.optional, hnothing, ok_bind, ha]
    rfl
  · intro hnone
    exact Option.map_eq_none_iff.1 hnone

/-- A field that is written only under a condition has its default otherwise. -/
theorem getD_onlyIf {keep : Bool} {v : Value} {default : α} (h : r.Spells slots others)
    (hslot : (name, Slots.onlyIf keep v) ∈ slots)
    (hread : ∀ m : Node, m.Spells v → read m = .ok a) (hskip : keep = false → a = default) :
    r.getD name default read = .ok a := by
  cases keep with
  | false => exact h.getD hslot nofun fun _ => hskip rfl
  | true =>
    refine h.getD hslot ?_ nofun
    rintro w ⟨⟩ m hm
    exact hread m hm

/-! ### Fields of each kind -/

theorem requiredText {s : String} (h : r.Spells slots others)
    (hslot : (name, some (.string s)) ∈ slots) : r.required name Node.text = .ok s :=
  h.required hslot fun _ => Node.Spells.text

theorem optionalText {o : Option String} (h : r.Spells slots others)
    (hslot : (name, o.map .string) ∈ slots) : r.get? name Node.text = .ok o :=
  h.get? hslot fun _ _ _ hm => ⟨hm.isNothing_text, hm.text⟩

/-- A text that is written even if it is empty. -/
theorem writtenText {s default : String} (h : r.Spells slots others)
    (hslot : (name, some (.string s)) ∈ slots) : r.getD name default Node.text = .ok s := by
  refine h.getD hslot ?_ nofun
  rintro v ⟨⟩ m hm
  exact hm.text

theorem text {s : String} (h : r.Spells slots others) (hslot : (name, Slots.text s) ∈ slots) :
    r.getD name "" Node.text = .ok s :=
  h.getD_onlyIf hslot (fun _ => Node.Spells.text) (by simp)

theorem list {write : α → Value} {l : List α} (h : r.Spells slots others)
    (hslot : (name, Slots.list write l) ∈ slots)
    (hread : ∀ a ∈ l, ∀ m : Node, m.Spells (write a) → read m = .ok a) :
    r.getD name [] (Node.list read) = .ok l :=
  h.getD_onlyIf hslot (fun _ => Node.Spells.list hread) (by simp)

theorem texts {l : List String} (h : r.Spells slots others)
    (hslot : (name, Slots.texts l) ∈ slots) : r.getD name [] Node.texts = .ok l :=
  h.list hslot fun _ _ _ => Node.Spells.text

theorem textDict {d : Dict String} (h : r.Spells slots others)
    (hslot : (name, Slots.textDict d) ∈ slots) : r.getD name {} Node.textDict = .ok d := by
  refine h.getD_onlyIf hslot (fun _ => Node.Spells.textDict) fun hempty => ?_
  have hentries : d.entries = [] := by simpa [Dict.isEmpty] using hempty
  exact Dict.ext_entries hentries

theorem rest {d : Dict Value} (h : r.Spells slots d.entries)
    (hplain : ∀ e ∈ d.entries, e.2.isPlain) : r.rest = .ok d := by
  rw [Record.rest, h.others.values hplain]
  exact congrArg Except.ok (Dict.empty_merge d)

end Spells
end Record
end Yaml
end LayeredConfig
