/-
Reading back what an object of a fragment has written.

Every object fills its slots and writes its unsupported keys beside them. If the object is sound,
the keys of both parts are different, so reading gives the object back (`Image.ofNode_of_spells` and
its like, up to `Fragment.ofNode_of_spells`).
-/
import LayeredConfig.Fragment.Printer
import LayeredConfig.Proofs.Fragment.Objects
import LayeredConfig.Proofs.Yaml.Slots

namespace LayeredConfig

open Yaml (Value Node Record Slots FieldsSpell Error)

variable {n : Node}

namespace Object.Sound

variable {o : Object}

theorem not_mem_names (h : o.Sound) : ∀ key ∈ o.unsupported.keys, key ∉ o.names := by
  intro key hkey
  obtain ⟨e, he, rfl⟩ := List.mem_map.1 hkey
  exact (h e he).1

theorem plain (h : o.Sound) : ∀ e ∈ o.unsupported.entries, e.2.isPlain := fun e he => (h e he).2

end Object.Sound

/-! ## Overrides and references -/

namespace Image

def slots (i : Image) : Slots :=
  [("name", some (.string i.name)), ("newName", i.newName.map .string),
    ("newTag", i.newTag.map .string), ("digest", i.digest.map .string)]

theorem toValue_eq (i : Image) :
    i.toValue = .ofEntries (i.slots.entries ++ i.unsupported.entries) := by
  rw [← Value.map_ofSlots]
  simp [toValue, slots]

theorem ofNode_of_spells {i : Image} (hi : Object.Sound ⟨fieldNames, i.unsupported⟩)
    (h : n.Spells i.toValue) : ofNode n = .ok i := by
  rw [toValue_eq] at h
  obtain ⟨r, hr, hs⟩ := Record.exists_spells_of_dict h (by decide : fieldNames.Nodup)
    hi.not_mem_names
  refine ofNode_eq_ok_iff.2 ⟨r, hr, hs.requiredText ?_, hs.optionalText ?_, hs.optionalText ?_,
    hs.optionalText ?_, hs.rest hi.plain⟩
  all_goals simp [slots]

end Image

namespace ObjectRef

def slots (o : ObjectRef) : Slots :=
  [("apiVersion", o.apiVersion.map .string), ("group", o.group.map .string),
    ("version", o.version.map .string), ("kind", some (.string o.kind)),
    ("name", some (.string o.name)), ("namespace", o.nameSpace.map .string)]

theorem toValue_eq (o : ObjectRef) :
    o.toValue = .ofEntries (o.slots.entries ++ o.unsupported.entries) := by
  rw [← Value.map_ofSlots]
  simp [toValue, slots]

theorem ofNode_of_spells {o : ObjectRef} (ho : Object.Sound ⟨fieldNames, o.unsupported⟩)
    (h : n.Spells o.toValue) : ofNode n = .ok o := by
  rw [toValue_eq] at h
  obtain ⟨r, hr, hs⟩ := Record.exists_spells_of_dict h (by decide : fieldNames.Nodup)
    ho.not_mem_names
  refine ofNode_eq_ok_iff.2 ⟨r, hr, hs.optionalText ?_, hs.optionalText ?_, hs.optionalText ?_,
    hs.writtenText ?_, hs.requiredText ?_, hs.optionalText ?_, hs.rest ho.plain⟩
  all_goals simp [slots]

end ObjectRef

namespace FieldRef

def slots (r : FieldRef) : Slots := [("fieldpath", some (.string r.fieldPath))]

theorem toValue_eq (r : FieldRef) :
    r.toValue = .ofEntries (r.slots.entries ++ r.unsupported.entries) := by
  rw [← Value.map_ofSlots]
  simp [toValue, slots]

theorem ofNode_of_spells {f : FieldRef} (hf : Object.Sound ⟨fieldNames, f.unsupported⟩)
    (h : n.Spells f.toValue) : ofNode n = .ok f := by
  rw [toValue_eq] at h
  obtain ⟨r, hr, hs⟩ := Record.exists_spells_of_dict h (by decide : fieldNames.Nodup)
    hf.not_mem_names
  refine ofNode_eq_ok_iff.2 ⟨r, hr, hs.requiredText ?_, hs.rest hf.plain⟩
  simp [slots]

end FieldRef

namespace Var

def slots (v : Var) : Slots :=
  [("name", some (.string v.name)), ("objref", some v.object.toValue),
    ("fieldref", v.field.map FieldRef.toValue)]

theorem toValue_eq (v : Var) :
    v.toValue = .ofEntries (v.slots.entries ++ v.unsupported.entries) := by
  rw [← Value.map_ofSlots]
  simp [toValue, slots]

theorem ofNode_of_spells {v : Var} (hv : ∀ o ∈ v.objects, o.Sound) (h : n.Spells v.toValue) :
    ofNode n = .ok v := by
  have hown : Object.Sound ⟨fieldNames, v.unsupported⟩ := hv _ (by simp [objects])
  have hobject : Object.Sound ⟨ObjectRef.fieldNames, v.object.unsupported⟩ :=
    hv _ (by simp [objects])
  have hfield : ∀ r ∈ v.field, Object.Sound ⟨FieldRef.fieldNames, r.unsupported⟩ := fun r hr =>
    hv _ (by simpa [objects] using .inr (.inr ⟨r, hr, rfl⟩))
  rw [toValue_eq] at h
  obtain ⟨r, hr, hs⟩ := Record.exists_spells_of_dict h (by decide : fieldNames.Nodup)
    hown.not_mem_names
  refine ofNode_eq_ok_iff.2 ⟨r, hr, hs.requiredText ?_,
    hs.required ?_ fun _ => ObjectRef.ofNode_of_spells hobject,
    hs.get? ?_ fun r hr m (hm : m.Spells r.toValue) =>
      ⟨hm.isNothing_map, FieldRef.ofNode_of_spells (hfield r hr) hm⟩,
    hs.rest hown.plain⟩
  all_goals simp [slots]

end Var

namespace PatchTarget

def slots (t : PatchTarget) : Slots :=
  [("group", t.group.map .string), ("version", t.version.map .string),
    ("kind", some (.string t.kind)), ("name", some (.string t.name)),
    ("namespace", t.nameSpace.map .string)]

theorem toValue_eq (t : PatchTarget) :
    t.toValue = .ofEntries (t.slots.entries ++ t.unsupported.entries) := by
  rw [← Value.map_ofSlots]
  simp [toValue, slots]

theorem ofNode_of_spells {t : PatchTarget} (ht : Object.Sound ⟨fieldNames, t.unsupported⟩)
    (h : n.Spells t.toValue) : ofNode n = .ok t := by
  rw [toValue_eq] at h
  obtain ⟨r, hr, hs⟩ := Record.exists_spells_of_dict h (by decide : fieldNames.Nodup)
    ht.not_mem_names
  refine ofNode_eq_ok_iff.2 ⟨r, hr, hs.optionalText ?_, hs.optionalText ?_, hs.writtenText ?_,
    hs.requiredText ?_, hs.optionalText ?_, hs.rest ht.plain⟩
  all_goals simp [slots]

end PatchTarget

namespace JsonPatch

def slots (p : JsonPatch) : Slots :=
  [("target", some p.target.toValue), ("path", some (.string p.path))]

theorem toValue_eq (p : JsonPatch) :
    p.toValue = .ofEntries (p.slots.entries ++ p.unsupported.entries) := by
  rw [← Value.map_ofSlots]
  simp [toValue, slots]

theorem ofNode_of_spells {p : JsonPatch} (hp : ∀ o ∈ p.objects, o.Sound) (h : n.Spells p.toValue) :
    ofNode n = .ok p := by
  have hown : Object.Sound ⟨fieldNames, p.unsupported⟩ := hp _ (by simp [objects])
  have htarget : Object.Sound ⟨PatchTarget.fieldNames, p.target.unsupported⟩ :=
    hp _ (by simp [objects])
  rw [toValue_eq] at h
  obtain ⟨r, hr, hs⟩ := Record.exists_spells_of_dict h (by decide : fieldNames.Nodup)
    hown.not_mem_names
  refine ofNode_eq_ok_iff.2 ⟨r, hr,
    hs.required ?_ fun _ => PatchTarget.ofNode_of_spells htarget,
    hs.requiredText ?_, hs.rest hown.plain⟩
  all_goals simp [slots]

end JsonPatch

/-! ## Generators -/

namespace GeneratorOptions

def slots (o : GeneratorOptions) : Slots :=
  [("labels", Slots.textDict o.labels), ("annotations", Slots.textDict o.annotations),
    ("disableNameSuffixHash",
      Slots.onlyIf o.disableNameSuffixHash (.bool o.disableNameSuffixHash))]

theorem toValue_eq (o : GeneratorOptions) :
    o.toValue = .ofEntries (o.slots.entries ++ o.unsupported.entries) := by
  rw [← Value.map_ofSlots]
  simp [toValue, slots]

theorem ofNode_of_spells {o : GeneratorOptions} (ho : Object.Sound ⟨fieldNames, o.unsupported⟩)
    (h : n.Spells o.toValue) : ofNode n = .ok o := by
  rw [toValue_eq] at h
  obtain ⟨r, hr, hs⟩ := Record.exists_spells_of_dict h (by decide : fieldNames.Nodup)
    ho.not_mem_names
  refine ofNode_eq_ok_iff.2 ⟨r, hr, hs.textDict ?_, hs.textDict ?_,
    hs.getD_onlyIf ?_ (fun _ => Node.Spells.flag) id,
    hs.rest ho.plain⟩
  all_goals simp [slots]

end GeneratorOptions

namespace Generator

def slots (g : Generator) : Slots :=
  [("name", some (.string g.name)), ("namespace", g.nameSpace.map .string),
    ("behavior", Slots.onlyIf (g.behavior ≠ .unspecified) (.string g.behavior.name)),
    ("env", g.env.map .string), ("envs", Slots.texts g.envs), ("files", Slots.texts g.files),
    ("literals", Slots.texts g.literals)]

theorem fields_eq (g : Generator) :
    .map g.fields = Value.ofEntries (g.slots.entries ++ g.unsupported.entries) := by
  rw [← Value.map_ofSlots]
  simp [fields, slots]

theorem plain_entries {g : Generator} (hplain : ∀ e ∈ g.unsupported.entries, e.2.isPlain) :
    ∀ e ∈ g.slots.entries ++ g.unsupported.entries, e.2.isPlain := by
  refine List.forall_mem_append.2
    ⟨(Slots.forall_mem_entries_iff (P := fun v => v.isPlain)).2 ?_, hplain⟩
  simp [slots]

/-! What each slot is read as. -/

theorem elim_text (s : String) :
    (some (Value.string s)).elim (.error (.missingField "name")) Value.text = .ok s := rfl

theorem elim_optionalText (o : Option String) :
    (o.map Value.string).elim (.ok none) Value.optionalText = .ok o := by
  cases o <;> rfl

theorem elim_textList (l : List String) :
    (Slots.texts l).elim (.ok []) Value.textList = .ok l := by
  cases l with
  | nil => rfl
  | cons s l =>
    show ((s :: l).map Value.string).mapM Value.text = .ok (s :: l)
    rw [List.mapM_map]
    exact (mapM_of_ok id _).trans (by rw [List.map_id])

theorem elim_behavior (b : Behavior) :
    (Slots.onlyIf (b ≠ .unspecified) (.string b.name)).elim (.ok .unspecified) Behavior.ofValue =
      .ok b := by
  cases b <;> rfl

/-- What the slots of a generator hold is read as its fields. -/
theorem ofEntries_slots {g : Generator} (hg : ∀ key ∈ g.unsupported.keys, key ∉ fieldNames) :
    ofEntries (g.slots.entries ++ g.unsupported.entries) = .ok g := by
  have hnodup : g.slots.names.Nodup := (by decide : fieldNames.Nodup)
  have hnames : ∀ key ∈ g.unsupported.keys, key ∉ g.slots.names := hg
  have hknown : (g.slots.entries ++ g.unsupported.entries).filter (·.1 ∈ fieldNames) =
      g.slots.entries := Slots.filter_mem_names hnames
  have hothers : (g.slots.entries ++ g.unsupported.entries).filter (·.1 ∉ fieldNames) =
      g.unsupported.entries := Slots.filter_not_mem_names hnames
  have hentry {α : Type} {name : String} {v? : Option Value} {missing : Except Error α}
      {read : Value → Except Error α} {a : α} (hslot : (name, v?) ∈ g.slots)
      (h : v?.elim missing read = .ok a) :
      entry (g.slots.entries ++ g.unsupported.entries) name missing read = .ok a := by
    rw [entry, hknown, Slots.lookup_entries hnodup hslot, h]
  refine ofEntries_eq_ok_iff.2 ⟨?repeated, hentry ?_ (elim_text _), hentry ?_ (elim_optionalText _),
    hentry ?_ (elim_behavior _), hentry ?_ (elim_optionalText _), hentry ?_ (elim_textList _),
    hentry ?_ (elim_textList _), hentry ?_ (elim_textList _), ?rest⟩
  case repeated =>
    rw [hknown]
    exact Record.repeated?_eq_none (hnodup.sublist Slots.names_entries_sublist)
  case rest =>
    rw [hothers]
    exact (Dict.empty_merge g.unsupported).symm
  all_goals simp [slots]

theorem ofNode_of_spells {g : Generator} (hg : Object.Sound ⟨fieldNames, g.unsupported⟩)
    (h : n.Spells g.toValue) : ofNode n = .ok g := by
  rw [toValue, fields_eq] at h
  obtain ⟨fields, hfields, hspell⟩ := FieldsSpell.of_node h
  refine ofNode_eq_ok_iff.2 ⟨_, ?_, ofEntries_slots hg.not_mem_names⟩
  rw [hfields, ok_bind]
  exact hspell.values (plain_entries hg.plain)

end Generator

namespace SecretGenerator

def slots (s : SecretGenerator) : Slots := [("type", s.secretType.map .string)]

/-- What all generators write, before what only secrets do. -/
def common (s : SecretGenerator) : List (String × Value) :=
  s.toGenerator.slots.entries ++ s.unsupported.entries

theorem toValue_eq (s : SecretGenerator) :
    s.toValue = .ofEntries (s.common ++ s.slots.entries) := by
  have hcommon := Value.map.inj (Generator.fields_eq s.toGenerator)
  have htype : Value.Fields.optionalText "type" s.secretType =
      s.slots.entries.map fun e => (.string e.1, e.2) := by
    unfold slots
    cases s.secretType <;> rfl
  rw [toValue, hcommon, htype, ← List.map_append]
  rfl

theorem ofNode_of_spells {s : SecretGenerator} (hs : Object.Sound ⟨fieldNames, s.unsupported⟩)
    (h : n.Spells s.toValue) : ofNode n = .ok s := by
  have hkeys : ∀ key ∈ s.unsupported.keys, key ≠ "type" ∧ key ∉ Generator.fieldNames :=
    fun key hkey => not_or.1 (mt List.mem_cons.2 (hs.not_mem_names key hkey))
  have hcommon : ∀ e ∈ s.common, e.1 ∉ ["type"] := by
    refine List.forall_mem_append.2 ⟨fun e he hmem => ?_, fun e he => ?_⟩
    · have hname : e.1 ∈ Generator.fieldNames :=
        Slots.names_entries_sublist.subset (List.mem_map_of_mem he)
      rw [List.mem_singleton.1 hmem] at hname
      exact absurd hname (by decide)
    · exact mt List.mem_singleton.1 (hkeys e.1 (List.mem_map_of_mem he)).1
  have hslots : ∀ e ∈ s.slots.entries, e.1 ∈ ["type"] := fun e he =>
    Slots.names_entries_sublist.subset (List.mem_map_of_mem he)
  rw [toValue_eq] at h
  have hnodup : s.slots.names.Nodup := (by decide : ["type"].Nodup)
  have hknown : (s.common ++ s.slots.entries).filter (·.1 ∈ ["type"]) = s.slots.entries := by
    rw [List.filter_append, List.filter_eq_nil_iff.2 (by simpa using hcommon),
      List.filter_eq_self.2 (by simpa using hslots), List.nil_append]
  have hothers : (s.common ++ s.slots.entries).filter (·.1 ∉ ["type"]) = s.common := by
    rw [List.filter_append, List.filter_eq_self.2 (by simpa using hcommon),
      List.filter_eq_nil_iff.2 (by simpa using hslots), List.append_nil]
  obtain ⟨r, hr, hspell⟩ := Record.exists_spells h hnodup hknown hothers
  refine ofNode_eq_ok_iff.2 ⟨r, hr, ?_, hspell.optionalText (by simp [slots])⟩
  have hplain := Generator.plain_entries (g := s.toGenerator) hs.plain
  rw [Generator.plainEntries, hspell.others.values hplain, ok_bind]
  exact Generator.ofEntries_slots fun key hkey => (hkeys key hkey).2

end SecretGenerator

/-! ## Fragments -/

namespace Fragment

def slots (f : Fragment) : Slots :=
  [("apiVersion", f.apiVersion.map .string), ("kind", f.kind.map .string),
    ("namePrefix", Slots.text f.namePrefix), ("nameSuffix", Slots.text f.nameSuffix),
    ("namespace", Slots.text f.nameSpace), ("commonLabels", Slots.textDict f.commonLabels),
    ("commonAnnotations", Slots.textDict f.commonAnnotations),
    ("patchesStrategicMerge", Slots.texts f.strategicPatches),
    ("patchesJson6902", Slots.list JsonPatch.toValue f.jsonPatches),
    ("images", Slots.list Image.toValue f.images), ("vars", Slots.list Var.toValue f.vars),
    ("resources", Slots.texts f.resources), ("crds", Slots.texts f.crds),
    ("bases", f.bases.map Value.texts),
    ("configMapGenerator", Slots.list Generator.toValue f.configMaps),
    ("secretGenerator", Slots.list SecretGenerator.toValue f.secrets),
    ("generatorOptions", f.generatorOptions.map GeneratorOptions.toValue),
    ("configurations", Slots.texts f.configurations)]

theorem toValue_eq (f : Fragment) :
    f.toValue = .ofEntries (f.slots.entries ++ f.unsupported.entries) := by
  rw [← Value.map_ofSlots]
  simp [toValue, slots]

/-- A sound fragment is read from every node that spells what it writes. -/
theorem ofNode_of_spells {f : Fragment} (hf : f.Sound) (h : n.Spells f.toValue) :
    ofNode n = .ok f := by
  obtain ⟨hown, hfields⟩ := sound_iff.1 hf
  have hitem {α : Type} {objects : α → List Object} {l : List α} {a : α} (ha : a ∈ l)
      (hl : ∀ o ∈ l.flatMap objects, o.Sound) : ∀ o ∈ objects a, o.Sound := fun o ho =>
    hl o (List.mem_flatMap.2 ⟨a, ha, ho⟩)
  have hpatches : ∀ p ∈ f.jsonPatches, ∀ m : Node, m.Spells p.toValue →
      JsonPatch.ofNode m = .ok p :=
    fun p hp _ => JsonPatch.ofNode_of_spells (hitem hp (hfields .jsonPatches))
  have himages : ∀ i ∈ f.images, ∀ m : Node, m.Spells i.toValue → Image.ofNode m = .ok i :=
    fun i hi _ => Image.ofNode_of_spells (hitem hi (hfields .images) _ List.mem_cons_self)
  have hvars : ∀ v ∈ f.vars, ∀ m : Node, m.Spells v.toValue → Var.ofNode m = .ok v :=
    fun v hv _ => Var.ofNode_of_spells (hitem hv (hfields .vars))
  have hmaps : ∀ g ∈ f.configMaps, ∀ m : Node, m.Spells g.toValue → Generator.ofNode m = .ok g :=
    fun g hg _ => Generator.ofNode_of_spells (hitem hg (hfields .configMaps) _ List.mem_cons_self)
  have hsecrets : ∀ s ∈ f.secrets, ∀ m : Node, m.Spells s.toValue →
      SecretGenerator.ofNode m = .ok s := fun s hs _ =>
    SecretGenerator.ofNode_of_spells (hitem hs (hfields .secrets) _ List.mem_cons_self)
  have hoptions : ∀ o ∈ f.generatorOptions, ∀ m : Node, m.Spells o.toValue →
      m.isNothing = .ok false ∧ GeneratorOptions.ofNode m = .ok o := fun o ho _ hm =>
    ⟨hm.isNothing_map, GeneratorOptions.ofNode_of_spells (hitem (Option.mem_toList.2 ho)
      (hfields .generatorOptions) _ List.mem_cons_self) hm⟩
  have hbases : ∀ l ∈ f.bases, ∀ m : Node, m.Spells (Value.texts l) →
      m.isNothing = .ok false ∧ m.texts = .ok l := fun _ _ _ hm => ⟨hm.isNothing_seq, hm.texts⟩
  rw [toValue_eq] at h
  obtain ⟨r, hr, hs⟩ := Record.exists_spells_of_dict h (by decide : fieldNames.Nodup)
    hown.not_mem_names
  refine ofNode_eq_ok_iff.2 ⟨r, hr, hs.optionalText ?_, hs.optionalText ?_, hs.text ?_, hs.text ?_,
    hs.text ?_, hs.textDict ?_, hs.textDict ?_, hs.texts ?_, hs.list ?_ hpatches,
    hs.list ?_ himages, hs.list ?_ hvars, hs.texts ?_, hs.texts ?_, hs.get? ?_ hbases,
    hs.list ?_ hmaps, hs.list ?_ hsecrets, hs.get? ?_ hoptions, hs.texts ?_, hs.rest hown.plain⟩
  all_goals simp [slots]

end Fragment
end LayeredConfig
