/-
What the objects of a fragment are read from.

Each field of an object has a name, and comes from what the mapping of the object has under that
name (`Image.ofNode_eq_ok_iff` and its like). The keys of the mapping that name no field are the
unsupported keys of the object, neither more nor less (`Image.kept` and its like).
-/
import LayeredConfig.Fragment.Reader
import LayeredConfig.Proofs.Yaml.Mapping

namespace LayeredConfig

open Yaml (Value Node Record Kept Error keys_of_mapM plain_of_mapM keys_filter)

variable {n : Node}

/-! ## Generators -/

namespace Generator

variable {entries : List (String × Value)} {g : Generator}

/-- The value of a field among the entries that have names of fields. -/
def entry {α : Type} (entries : List (String × Value)) (name : String)
    (missing : Except Error α) (read : Value → Except Error α) : Except Error α :=
  ((entries.filter (·.1 ∈ fieldNames)).lookup name).elim missing read

theorem ofEntries_eq_ok_iff : ofEntries entries = .ok g ↔
    Record.repeated? ((entries.filter (·.1 ∈ fieldNames)).map (·.1)) = none ∧
    entry entries "name" (.error (.missingField "name")) Value.text = .ok g.name ∧
    entry entries "namespace" (.ok none) Value.optionalText = .ok g.nameSpace ∧
    entry entries "behavior" (.ok .unspecified) Behavior.ofValue = .ok g.behavior ∧
    entry entries "env" (.ok none) Value.optionalText = .ok g.env ∧
    entry entries "envs" (.ok []) Value.textList = .ok g.envs ∧
    entry entries "files" (.ok []) Value.textList = .ok g.files ∧
    entry entries "literals" (.ok []) Value.textList = .ok g.literals ∧
    g.unsupported = Dict.ofList (entries.filter (·.1 ∉ fieldNames)) := by
  unfold ofEntries
  cases hrep : Record.repeated? ((entries.filter (·.1 ∈ fieldNames)).map (·.1)) with
  | some name =>
    simp only [hrep]
    exact ⟨fun h => absurd h nofun, fun h => absurd h.1 nofun⟩
  | none =>
    simp only [hrep, bind_eq_ok_iff, true_and]
    constructor
    · rintro ⟨name, hname, nameSpace, hspace, behavior, hbehavior, env, henv, envs, henvs, files,
        hfiles, literals, hliterals, h⟩
      obtain rfl := Except.ok.inj h
      exact ⟨hname, hspace, hbehavior, henv, henvs, hfiles, hliterals, rfl⟩
    · rintro ⟨hname, hspace, hbehavior, henv, henvs, hfiles, hliterals, hrest⟩
      refine ⟨_, hname, _, hspace, _, hbehavior, _, henv, _, henvs, _, hfiles, _, hliterals, ?_⟩
      rw [← hrest]
      rfl

theorem ofNode_eq_ok_iff : ofNode n = .ok g ↔
    ∃ entries, (n.fields >>= plainEntries) = .ok entries ∧ ofEntries entries = .ok g := by
  unfold ofNode
  simp only [bind_eq_ok_iff]
  constructor
  · rintro ⟨fields, hfields, entries, hentries, h⟩
    exact ⟨entries, ⟨fields, hfields, hentries⟩, h⟩
  · rintro ⟨entries, ⟨fields, hfields, hentries⟩, h⟩
    exact ⟨fields, hfields, entries, hentries, h⟩

theorem mem_unsupported_iff {key : String} (h : ofEntries entries = .ok g) :
    key ∈ g.unsupported.keys ↔ key ∈ entries.map (·.1) ∧ key ∉ fieldNames := by
  obtain ⟨-, -, -, -, -, -, -, -, hrest⟩ := ofEntries_eq_ok_iff.1 h
  rw [hrest, Dict.mem_keys_ofList, keys_filter, List.mem_filter, decide_eq_true_eq]

theorem plain_unsupported (h : ofEntries entries = .ok g) (hplain : ∀ e ∈ entries, e.2.isPlain) :
    ∀ e ∈ g.unsupported.entries, e.2.isPlain := by
  obtain ⟨-, -, -, -, -, -, -, -, hrest⟩ := ofEntries_eq_ok_iff.1 h
  intro e he
  rw [hrest] at he
  exact hplain e (List.mem_of_mem_filter (Dict.mem_of_mem_ofList he))

theorem kept (h : ofNode n = .ok g) : Kept fieldNames n g.unsupported := by
  obtain ⟨entries, hentries, h⟩ := ofNode_eq_ok_iff.1 h
  obtain ⟨fields, hfields, hentries⟩ := bind_eq_ok_iff.1 hentries
  obtain rfl := Node.fields_eq_ok hfields
  refine ⟨fun key => ?_, plain_unsupported h (plain_of_mapM hentries)⟩
  rw [mem_unsupported_iff h, keys_of_mapM hentries]
  rfl

end Generator

namespace SecretGenerator

variable {s : SecretGenerator}

def fieldNames : List String := "type" :: Generator.fieldNames

theorem ofNode_eq_ok_iff : ofNode n = .ok s ↔ ∃ r, Record.ofNode ["type"] n = .ok r ∧
    (Generator.plainEntries r.others >>= Generator.ofEntries) = .ok s.toGenerator ∧
    r.get? "type" Node.text = .ok s.secretType := by
  unfold ofNode
  simp only [bind_eq_ok_iff]
  constructor
  · rintro ⟨r, hr, entries, hentries, g, hg, type, htype, h⟩
    obtain rfl := Except.ok.inj h
    exact ⟨r, hr, ⟨entries, hentries, hg⟩, htype⟩
  · rintro ⟨r, hr, ⟨entries, hentries, hg⟩, htype⟩
    exact ⟨r, hr, entries, hentries, _, hg, _, htype, rfl⟩

theorem kept (h : ofNode n = .ok s) : Kept fieldNames n s.unsupported := by
  obtain ⟨r, hr, hg, -⟩ := ofNode_eq_ok_iff.1 h
  obtain ⟨entries, hentries, hg⟩ := bind_eq_ok_iff.1 hg
  refine ⟨fun key => ?_, Generator.plain_unsupported hg (plain_of_mapM hentries)⟩
  rw [Generator.mem_unsupported_iff hg, keys_of_mapM hentries, (Record.ofNode_eq_ok hr).2,
    keys_filter, List.mem_filter, decide_eq_true_eq, List.mem_singleton, and_assoc, fieldNames,
    List.mem_cons, not_or, Node.keys]

end SecretGenerator

namespace GeneratorOptions

variable {o : GeneratorOptions}

def fieldNames : List String := ["labels", "annotations", "disableNameSuffixHash"]

theorem ofNode_eq_ok_iff : ofNode n = .ok o ↔ ∃ r, Record.ofNode fieldNames n = .ok r ∧
    r.getD "labels" {} Node.textDict = .ok o.labels ∧
    r.getD "annotations" {} Node.textDict = .ok o.annotations ∧
    r.getD "disableNameSuffixHash" false Node.flag = .ok o.disableNameSuffixHash ∧
    r.rest = .ok o.unsupported := by
  unfold ofNode
  simp only [bind_eq_ok_iff]
  constructor
  · rintro ⟨r, hr, labels, hlabels, annotations, hannotations, hash, hhash, rest, hrest, h⟩
    obtain rfl := Except.ok.inj h
    exact ⟨r, hr, hlabels, hannotations, hhash, hrest⟩
  · rintro ⟨r, hr, hlabels, hannotations, hhash, hrest⟩
    exact ⟨r, hr, _, hlabels, _, hannotations, _, hhash, _, hrest, rfl⟩

theorem kept (h : ofNode n = .ok o) : Kept fieldNames n o.unsupported := by
  obtain ⟨r, hr, -, -, -, hrest⟩ := ofNode_eq_ok_iff.1 h
  exact Record.kept_rest hr hrest

end GeneratorOptions

/-! ## Overrides and references -/

namespace Image

variable {i : Image}

def fieldNames : List String := ["name", "newName", "newTag", "digest"]

theorem ofNode_eq_ok_iff : ofNode n = .ok i ↔ ∃ r, Record.ofNode fieldNames n = .ok r ∧
    r.required "name" Node.text = .ok i.name ∧
    r.get? "newName" Node.text = .ok i.newName ∧
    r.get? "newTag" Node.text = .ok i.newTag ∧
    r.get? "digest" Node.text = .ok i.digest ∧
    r.rest = .ok i.unsupported := by
  unfold ofNode
  simp only [bind_eq_ok_iff]
  constructor
  · rintro ⟨r, hr, name, hname, newName, hnew, newTag, htag, digest, hdigest, rest, hrest, h⟩
    obtain rfl := Except.ok.inj h
    exact ⟨r, hr, hname, hnew, htag, hdigest, hrest⟩
  · rintro ⟨r, hr, hname, hnew, htag, hdigest, hrest⟩
    exact ⟨r, hr, _, hname, _, hnew, _, htag, _, hdigest, _, hrest, rfl⟩

theorem kept (h : ofNode n = .ok i) : Kept fieldNames n i.unsupported := by
  obtain ⟨r, hr, -, -, -, -, hrest⟩ := ofNode_eq_ok_iff.1 h
  exact Record.kept_rest hr hrest

end Image

namespace ObjectRef

variable {o : ObjectRef}

def fieldNames : List String := ["apiVersion", "group", "version", "kind", "name", "namespace"]

theorem ofNode_eq_ok_iff : ofNode n = .ok o ↔ ∃ r, Record.ofNode fieldNames n = .ok r ∧
    r.get? "apiVersion" Node.text = .ok o.apiVersion ∧
    r.get? "group" Node.text = .ok o.group ∧
    r.get? "version" Node.text = .ok o.version ∧
    r.getD "kind" "" Node.text = .ok o.kind ∧
    r.required "name" Node.text = .ok o.name ∧
    r.get? "namespace" Node.text = .ok o.nameSpace ∧
    r.rest = .ok o.unsupported := by
  unfold ofNode
  simp only [bind_eq_ok_iff]
  constructor
  · rintro ⟨r, hr, api, hapi, group, hgroup, version, hversion, kind, hkind, name, hname, space,
      hspace, rest, hrest, h⟩
    obtain rfl := Except.ok.inj h
    exact ⟨r, hr, hapi, hgroup, hversion, hkind, hname, hspace, hrest⟩
  · rintro ⟨r, hr, hapi, hgroup, hversion, hkind, hname, hspace, hrest⟩
    exact ⟨r, hr, _, hapi, _, hgroup, _, hversion, _, hkind, _, hname, _, hspace, _, hrest, rfl⟩

theorem kept (h : ofNode n = .ok o) : Kept fieldNames n o.unsupported := by
  obtain ⟨r, hr, -, -, -, -, -, -, hrest⟩ := ofNode_eq_ok_iff.1 h
  exact Record.kept_rest hr hrest

end ObjectRef

namespace FieldRef

variable {f : FieldRef}

def fieldNames : List String := ["fieldpath"]

theorem ofNode_eq_ok_iff : ofNode n = .ok f ↔ ∃ r, Record.ofNode fieldNames n = .ok r ∧
    r.required "fieldpath" Node.text = .ok f.fieldPath ∧ r.rest = .ok f.unsupported := by
  unfold ofNode
  simp only [bind_eq_ok_iff]
  constructor
  · rintro ⟨r, hr, path, hpath, rest, hrest, h⟩
    obtain rfl := Except.ok.inj h
    exact ⟨r, hr, hpath, hrest⟩
  · rintro ⟨r, hr, hpath, hrest⟩
    exact ⟨r, hr, _, hpath, _, hrest, rfl⟩

theorem kept (h : ofNode n = .ok f) : Kept fieldNames n f.unsupported := by
  obtain ⟨r, hr, -, hrest⟩ := ofNode_eq_ok_iff.1 h
  exact Record.kept_rest hr hrest

end FieldRef

namespace Var

variable {v : Var}

def fieldNames : List String := ["name", "objref", "fieldref"]

theorem ofNode_eq_ok_iff : ofNode n = .ok v ↔ ∃ r, Record.ofNode fieldNames n = .ok r ∧
    r.required "name" Node.text = .ok v.name ∧
    r.required "objref" ObjectRef.ofNode = .ok v.object ∧
    r.get? "fieldref" FieldRef.ofNode = .ok v.field ∧
    r.rest = .ok v.unsupported := by
  unfold ofNode
  simp only [bind_eq_ok_iff]
  constructor
  · rintro ⟨r, hr, name, hname, object, hobject, field, hfield, rest, hrest, h⟩
    obtain rfl := Except.ok.inj h
    exact ⟨r, hr, hname, hobject, hfield, hrest⟩
  · rintro ⟨r, hr, hname, hobject, hfield, hrest⟩
    exact ⟨r, hr, _, hname, _, hobject, _, hfield, _, hrest, rfl⟩

theorem kept (h : ofNode n = .ok v) : Kept fieldNames n v.unsupported := by
  obtain ⟨r, hr, -, -, -, hrest⟩ := ofNode_eq_ok_iff.1 h
  exact Record.kept_rest hr hrest

end Var

namespace PatchTarget

variable {t : PatchTarget}

def fieldNames : List String := ["group", "version", "kind", "name", "namespace"]

theorem ofNode_eq_ok_iff : ofNode n = .ok t ↔ ∃ r, Record.ofNode fieldNames n = .ok r ∧
    r.get? "group" Node.text = .ok t.group ∧
    r.get? "version" Node.text = .ok t.version ∧
    r.getD "kind" "" Node.text = .ok t.kind ∧
    r.required "name" Node.text = .ok t.name ∧
    r.get? "namespace" Node.text = .ok t.nameSpace ∧
    r.rest = .ok t.unsupported := by
  unfold ofNode
  simp only [bind_eq_ok_iff]
  constructor
  · rintro ⟨r, hr, group, hgroup, version, hversion, kind, hkind, name, hname, space, hspace, rest,
      hrest, h⟩
    obtain rfl := Except.ok.inj h
    exact ⟨r, hr, hgroup, hversion, hkind, hname, hspace, hrest⟩
  · rintro ⟨r, hr, hgroup, hversion, hkind, hname, hspace, hrest⟩
    exact ⟨r, hr, _, hgroup, _, hversion, _, hkind, _, hname, _, hspace, _, hrest, rfl⟩

theorem kept (h : ofNode n = .ok t) : Kept fieldNames n t.unsupported := by
  obtain ⟨r, hr, -, -, -, -, -, hrest⟩ := ofNode_eq_ok_iff.1 h
  exact Record.kept_rest hr hrest

end PatchTarget

namespace JsonPatch

variable {p : JsonPatch}

def fieldNames : List String := ["target", "path"]

theorem ofNode_eq_ok_iff : ofNode n = .ok p ↔ ∃ r, Record.ofNode fieldNames n = .ok r ∧
    r.required "target" PatchTarget.ofNode = .ok p.target ∧
    r.required "path" Node.text = .ok p.path ∧
    r.rest = .ok p.unsupported := by
  unfold ofNode
  simp only [bind_eq_ok_iff]
  constructor
  · rintro ⟨r, hr, target, htarget, path, hpath, rest, hrest, h⟩
    obtain rfl := Except.ok.inj h
    exact ⟨r, hr, htarget, hpath, hrest⟩
  · rintro ⟨r, hr, htarget, hpath, hrest⟩
    exact ⟨r, hr, _, htarget, _, hpath, _, hrest, rfl⟩

theorem kept (h : ofNode n = .ok p) : Kept fieldNames n p.unsupported := by
  obtain ⟨r, hr, -, -, hrest⟩ := ofNode_eq_ok_iff.1 h
  exact Record.kept_rest hr hrest

end JsonPatch

/-! ## Fragments -/

namespace Fragment

variable {f : Fragment}

theorem ofNode_eq_ok_iff : ofNode n = .ok f ↔ ∃ r, Record.ofNode fieldNames n = .ok r ∧
    r.get? "apiVersion" Node.text = .ok f.apiVersion ∧
    r.get? "kind" Node.text = .ok f.kind ∧
    r.getD "namePrefix" "" Node.text = .ok f.namePrefix ∧
    r.getD "nameSuffix" "" Node.text = .ok f.nameSuffix ∧
    r.getD "namespace" "" Node.text = .ok f.nameSpace ∧
    r.getD "commonLabels" {} Node.textDict = .ok f.commonLabels ∧
    r.getD "commonAnnotations" {} Node.textDict = .ok f.commonAnnotations ∧
    r.getD "patchesStrategicMerge" [] Node.texts = .ok f.strategicPatches ∧
    r.getD "patchesJson6902" [] (Node.list JsonPatch.ofNode) = .ok f.jsonPatches ∧
    r.getD "images" [] (Node.list Image.ofNode) = .ok f.images ∧
    r.getD "vars" [] (Node.list Var.ofNode) = .ok f.vars ∧
    r.getD "resources" [] Node.texts = .ok f.resources ∧
    r.getD "crds" [] Node.texts = .ok f.crds ∧
    r.get? "bases" Node.texts = .ok f.bases ∧
    r.getD "configMapGenerator" [] (Node.list Generator.ofNode) = .ok f.configMaps ∧
    r.getD "secretGenerator" [] (Node.list SecretGenerator.ofNode) = .ok f.secrets ∧
    r.get? "generatorOptions" GeneratorOptions.ofNode = .ok f.generatorOptions ∧
    r.getD "configurations" [] Node.texts = .ok f.configurations ∧
    r.rest = .ok f.unsupported := by
  unfold ofNode
  simp only [bind_eq_ok_iff]
  constructor
  · rintro ⟨r, hr, api, hapi, kind, hkind, pre, hpre, suf, hsuf, space, hspace, labels, hlabels,
      notes, hnotes, strategic, hstrategic, patches, hpatches, images, himages, vars, hvars,
      resources, hresources, crds, hcrds, bases, hbases, maps, hmaps, secrets, hsecrets, options,
      hoptions, confs, hconfs, rest, hrest, h⟩
    obtain rfl := Except.ok.inj h
    exact ⟨r, hr, hapi, hkind, hpre, hsuf, hspace, hlabels, hnotes, hstrategic, hpatches, himages,
      hvars, hresources, hcrds, hbases, hmaps, hsecrets, hoptions, hconfs, hrest⟩
  · rintro ⟨r, hr, hapi, hkind, hpre, hsuf, hspace, hlabels, hnotes, hstrategic, hpatches, himages,
      hvars, hresources, hcrds, hbases, hmaps, hsecrets, hoptions, hconfs, hrest⟩
    exact ⟨r, hr, _, hapi, _, hkind, _, hpre, _, hsuf, _, hspace, _, hlabels, _, hnotes,
      _, hstrategic, _, hpatches, _, himages, _, hvars, _, hresources, _, hcrds, _, hbases,
      _, hmaps, _, hsecrets, _, hoptions, _, hconfs, _, hrest, rfl⟩

theorem kept (h : ofNode n = .ok f) : Kept fieldNames n f.unsupported := by
  obtain ⟨r, hr, -, -, -, -, -, -, -, -, -, -, -, -, -, -, -, -, -, -, hrest⟩ :=
    ofNode_eq_ok_iff.1 h
  exact Record.kept_rest hr hrest

end Fragment
end LayeredConfig
