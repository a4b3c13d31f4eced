/-
Writing fragments. Fields are written in one fixed order and dictionaries in key order, so equal
fragments have equal texts. What was left out, or holds nothing, is left out again; only `bases`
and `generatorOptions` are written even if they are empty, because their being there means
something.
-/
import LayeredConfig.Fragment.Basic
import LayeredConfig.Yaml.Fields
import LayeredConfig.Yaml.Printer

namespace LayeredConfig

open Yaml (Value Error)
open Yaml.Value (Fields ofDict)
open Yaml.Value.Fields (always onlyIf optional optionalText text list textList textDict)

namespace Generator

def fields (g : Generator) : Fields :=
  always "name" (.string g.name) ++
  optionalText "namespace" g.nameSpace ++
  onlyIf (g.behavior ≠ .unspecified) "behavior" (.string g.behavior.name) ++
  optionalText "env" g.env ++
  textList "envs" g.envs ++
  textList "files" g.files ++
  textList "literals" g.literals ++
  ofDict g.unsupported

def toValue (g : Generator) : Value := .map g.fields

end Generator

namespace SecretGenerator

def toValue (g : SecretGenerator) : Value :=
  .map (g.toGenerator.fields ++ optionalText "type" g.secretType)

end SecretGenerator

namespace GeneratorOptions

def toValue (o : GeneratorOptions) : Value :=
  .map <|
    textDict "labels" o.labels ++
    textDict "annotations" o.annotations ++
    onlyIf o.disableNameSuffixHash "disableNameSuffixHash" (.bool o.disableNameSuffixHash) ++
    ofDict o.unsupported

end GeneratorOptions

namespace Image

def toValue (i : Image) : Value :=
  .map <|
    always "name" (.string i.name) ++
    optionalText "newName" i.newName ++
    optionalText "newTag" i.newTag ++
    optionalText "digest" i.digest ++
    ofDict i.unsupported

end Image

namespace ObjectRef

def toValue (o : ObjectRef) : Value :=
  .map <|
    optionalText "apiVersion" o.apiVersion ++
    optionalText "group" o.group ++
    optionalText "version" o.version ++
    always "kind" (.string o.kind) ++
    always "name" (.string o.name) ++
    optionalText "namespace" o.nameSpace ++
    ofDict o.unsupported

end ObjectRef

namespace FieldRef

def toValue (r : FieldRef) : Value :=
  .map (always "fieldpath" (.string r.fieldPath) ++ ofDict r.unsupported)

end FieldRef

namespace Var

def toValue (v : Var) : Value :=
  .map <|
    always "name" (.string v.name) ++
    always "objref" v.object.toValue ++
    optional "fieldref" FieldRef.toValue v.field ++
    ofDict v.unsupported

end Var

namespace PatchTarget

def toValue (t : PatchTarget) : Value :=
  .map <|
    optionalText "group" t.group ++
    optionalText "version" t.version ++
    always "kind" (.string t.kind) ++
    always "name" (.string t.name) ++
    optionalText "namespace" t.nameSpace ++
    ofDict t.unsupported

end PatchTarget

namespace JsonPatch

def toValue (p : JsonPatch) : Value :=
  .map (always "target" p.target.toValue ++ always "path" (.string p.path) ++ ofDict p.unsupported)

end JsonPatch

namespace Fragment

def toValue (f : Fragment) : Value :=
  .map <|
    optionalText "apiVersion" f.apiVersion ++
    optionalText "kind" f.kind ++
    text "namePrefix" f.namePrefix ++
    text "nameSuffix" f.nameSuffix ++
    text "namespace" f.nameSpace ++
    textDict "commonLabels" f.commonLabels ++
    textDict "commonAnnotations" f.commonAnnotations ++
    textList "patchesStrategicMerge" f.strategicPatches ++
    list "patchesJson6902" JsonPatch.toValue f.jsonPatches ++
    list "images" Image.toValue f.images ++
    list "vars" Var.toValue f.vars ++
    textList "resources" f.resources ++
    textList "crds" f.crds ++
    optional "bases" Value.texts f.bases ++
    list "configMapGenerator" Generator.toValue f.configMaps ++
    list "secretGenerator" SecretGenerator.toValue f.secrets ++
    optional "generatorOptions" GeneratorOptions.toValue f.generatorOptions ++
    textList "configurations" f.configurations ++
    ofDict f.unsupported

/-- The YAML text of a fragment. -/
def print (f : Fragment) : Except Error String := f.toValue.print

end Fragment
end LayeredConfig
