/-
Reading fragments. Keys that no object knows are kept as values.

The entries of a generator are read as values first, because what is known of them is shared by
all kinds of generators. So its texts have to be texts: a number there is refused, where elsewhere
any scalar is taken as a text.
-/
import LayeredConfig.Fragment.Basic
import LayeredConfig.Yaml.Record

namespace LayeredConfig

open Yaml (Value Node Record Error)

/-! ## Values that have to be texts -/

def Yaml.Value.text : Value → Except Error String
  | .string s => .ok s
  | _ => .error .shape

def Yaml.Value.optionalText : Value → Except Error (Option String)
  | .null => .ok none
  | v => v.text.map some

def Yaml.Value.textList : Value → Except Error (List String)
  | .seq items => items.mapM Value.text
  | _ => .error .shape

/-! ## Generators -/

namespace Behavior

/-- Behaviors in the order in which they are numbered. -/
def all : List Behavior := [unspecified, create, merge, replace]

/-- A behavior by its name or number; an empty name leaves it unspecified. -/
def named : Value → Except Error Behavior
  | .string s =>
    if s = "" then .ok .unspecified
    else match all.find? (·.name = s) with
      | some b => .ok b
      | none => .error .shape
  | .int n => if n < 0 then .error .shape else match all[n.toNat]? with
    | some b => .ok b
    | none => .error .shape
  | _ => .error .shape

/-- A behavior is given by name, or as the key of a mapping that gives it no content. -/
def ofValue : Value → Except Error Behavior
  | .string s => named (.string s)
  | .map [(k, .null)] => named k
  | _ => .error .shape

end Behavior

namespace Generator

def fieldNames : List String :=
  ["name", "namespace", "behavior", "env", "envs", "files", "literals"]

/-- Reads a generator from its entries. -/
def ofEntries (entries : List (String × Value)) : Except Error Generator := do
  let known := entries.filter (·.1 ∈ fieldNames)
  if let some name := Record.repeated? (known.map (·.1)) then throw (.duplicateField name)
  let get {α : Type} (name : String) (default : α) (read : Value → Except Error α) :
      Except Error α := (known.lookup name).elim (.ok default) read
  let name ← (known.lookup "name").elim (.error (.missingField "name")) Value.text
  return {
    name
    nameSpace := ← get "namespace" none Value.optionalText
    behavior := ← get "behavior" .unspecified Behavior.ofValue
    env := ← get "env" none Value.optionalText
    envs := ← get "envs" [] Value.textList
    files := ← get "files" [] Value.textList
    literals := ← get "literals" [] Value.textList
    unsupported := Dict.ofList (entries.filter (·.1 ∉ fieldNames)) }

/-- The entries as values; tags have no place in them. -/
def plainEntries (fields : List (String × Node)) : Except Error (List (String × Value)) :=
  fields.mapM fun (k, n) => return (k, ← Value.ofNode false n)

def ofNode (n : Node) : Except Error Generator := do
  ofEntries (← plainEntries (← n.fields))

end Generator

namespace SecretGenerator

def ofNode (n : Node) : Except Error SecretGenerator := do
  let r ← Record.ofNode ["type"] n
  let generator ← Generator.ofEntries (← Generator.plainEntries r.others)
  return { generator with secretType := ← r.get? "type" Node.text }

end SecretGenerator

namespace GeneratorOptions

def ofNode (n : Node) : Except Error GeneratorOptions := do
  let r ← Record.ofNode ["labels", "annotations", "disableNameSuffixHash"] n
  return {
    labels := ← r.getD "labels" {} Node.textDict
    annotations := ← r.getD "annotations" {} Node.textDict
    disableNameSuffixHash := ← r.getD "disableNameSuffixHash" false Node.flag
    unsupported := ← r.rest }

end GeneratorOptions

/-! ## Overrides and references -/

namespace Image

def ofNode (n : Node) : Except Error Image := do
  let r ← Record.ofNode ["name", "newName", "newTag", "digest"] n
  return {
    name := ← r.required "name" Node.text
    newName := ← r.get? "newName" Node.text
    newTag := ← r.get? "newTag" Node.text
    digest := ← r.get? "digest" Node.text
    unsupported := ← r.rest }

end Image

namespace ObjectRef

def ofNode (n : Node) : Except Error ObjectRef := do
  let r ← Record.ofNode ["apiVersion", "group", "version", "kind", "name", "namespace"] n
  return {
    apiVersion := ← r.get? "apiVersion" Node.text
    group := ← r.get? "group" Node.text
    version := ← r.get? "version" Node.text
    kind := ← r.getD "kind" "" Node.text
    name := ← r.required "name" Node.text
    nameSpace := ← r.get? "namespace" Node.text
    unsupported := ← r.rest }

end ObjectRef

namespace FieldRef

def ofNode (n : Node) : Except Error FieldRef := do
  let r ← Record.ofNode ["fieldpath"] n
  return { fieldPath := ← r.required "fieldpath" Node.text, unsupported := ← r.rest }

end FieldRef

namespace Var

def ofNode (n : Node) : Except Error Var := do
  let r ← Record.ofNode ["name", "objref", "fieldref"] n
  return {
    name := ← r.required "name" Node.text
    object := ← r.required "objref" ObjectRef.ofNode
    field := ← r.get? "fieldref" FieldRef.ofNode
    unsupported := ← r.rest }

end Var

namespace PatchTarget

def ofNode (n : Node) : Except Error PatchTarget := do
  let r ← Record.ofNode ["group", "version", "kind", "name", "namespace"] n
  return {
    group := ← r.get? "group" Node.text
    version := ← r.get? "version" Node.text
    kind := ← r.getD "kind" "" Node.text
    name := ← r.required "name" Node.text
    nameSpace := ← r.get? "namespace" Node.text
    unsupported := ← r.rest }

end PatchTarget

namespace JsonPatch

def ofNode (n : Node) : Except Error JsonPatch := do
  let r ← Record.ofNode ["target", "path"] n
  return {
    target := ← r.required "target" PatchTarget.ofNode
    path := ← r.required "path" Node.text
    unsupported := ← r.rest }

end JsonPatch

/-! ## Fragments -/

namespace Fragment

def fieldNames : List String :=
  ["apiVersion", "kind", "namePrefix", "nameSuffix", "namespace", "commonLabels",
   "commonAnnotations", "patchesStrategicMerge", "patchesJson6902", "images", "vars", "resources",
   "crds", "bases", "configMapGenerator", "secretGenerator", "generatorOptions", "configurations"]

def ofNode (n : Node) : Except Error Fragment := do
  let r ← Record.ofNode fieldNames n
  return {
    apiVersion := ← r.get? "apiVersion" Node.text
    kind := ← r.get? "kind" Node.text
    namePrefix := ← r.getD "namePrefix" "" Node.text
    nameSuffix := ← r.getD "nameSuffix" "" Node.text
    nameSpace := ← r.getD "namespace" "" Node.text
    commonLabels := ← r.getD "commonLabels" {} Node.textDict
    commonAnnotations := ← r.getD "commonAnnotations" {} Node.textDict
    strategicPatches := ← r.getD "patchesStrategicMerge" [] Node.texts
    jsonPatches := ← r.getD "patchesJson6902" [] (Node.list JsonPatch.ofNode)
    images := ← r.getD "images" [] (Node.list Image.ofNode)
    vars := ← r.getD "vars" [] (Node.list Var.ofNode)
    resources := ← r.getD "resources" [] Node.texts
    crds := ← r.getD "crds" [] Node.texts
    bases := ← r.get? "bases" Node.texts
    configMaps := ← r.getD "configMapGenerator" [] (Node.list Generator.ofNode)
    secrets := ← r.getD "secretGenerator" [] (Node.list SecretGenerator.ofNode)
    generatorOptions := ← r.get? "generatorOptions" GeneratorOptions.ofNode
    configurations := ← r.getD "configurations" [] Node.texts
    unsupported := ← r.rest }

/-- The fragment of a YAML text. -/
def parse (text : String) : Except Error Fragment := do
  ofNode ((← Yaml.parse .whole text).getD Node.empty)

end Fragment
end LayeredConfig
