/-
Fragments: what one directory contributes to the configuration of a component. Every field that
can be folded into another fragment has a type of its own. All other keys, of the fragment and of
the objects inside it, are kept as they are under `unsupported`; a fragment that has some can be
read and written but not folded.
-/
import LayeredConfig.Dict
import LayeredConfig.Yaml.Value

namespace LayeredConfig

open Yaml (Value)

/-! ## Generators -/

/-- How a generator composes with an earlier one of the same name. -/
inductive Behavior where
  | unspecified
  | create
  | merge
  | replace
deriving DecidableEq, Repr, Inhabited

namespace Behavior

def name : Behavior → String
  | unspecified => "unspecified"
  | create => "create"
  | merge => "merge"
  | replace => "replace"

end Behavior

/-- A generator of a config map. -/
structure Generator where
  name : String := ""
  nameSpace : Option String := none
  behavior : Behavior := .unspecified
  /-- A single file of the kind listed in `envs`. -/
  env : Option String := none
  envs : List String := []
  /-- Each a `path` or `key=path`. -/
  files : List String := []
  literals : List String := []
  unsupported : Dict Value := {}
deriving Repr, Inhabited, BEq

/-- A generator of a secret. -/
structure SecretGenerator extends Generator where
  secretType : Option String := none
deriving Repr, Inhabited, BEq

/-- What holds for every generator of a fragment. -/
structure GeneratorOptions where
  labels : Dict String := {}
  annotations : Dict String := {}
  disableNameSuffixHash : Bool := false
  unsupported : Dict Value := {}
deriving Repr, Inhabited, BEq

/-! ## Overrides and references -/

/-- Another name, tag or digest for an image. -/
structure Image where
  name : String
  newName : Option String := none
  newTag : Option String := none
  digest : Option String := none
  unsupported : Dict Value := {}
deriving Repr, Inhabited, BEq

/-- The object that a variable is taken from. -/
structure ObjectRef where
  apiVersion : Option String := none
  group : Option String := none
  version : Option String := none
  kind : String := ""
  name : String
  nameSpace : Option String := none
  unsupported : Dict Value := {}
deriving Repr, Inhabited, BEq

/-- The field of an object that a variable is taken from. -/
structure FieldRef where
  fieldPath : String
  unsupported : Dict Value := {}
deriving Repr, Inhabited, BEq

/-- A named value that is taken from a field of an object. -/
structure Var where
  name : String
  object : ObjectRef
  field : Option FieldRef := none
  unsupported : Dict Value := {}
deriving Repr, Inhabited, BEq

/-- The one resource that a patch applies to. -/
structure PatchTarget where
  group : Option String := none
  version : Option String := none
  kind : String := ""
  name : String
  nameSpace : Option String := none
  unsupported : Dict Value := {}
deriving Repr, Inhabited, BEq

/-- A file of patch operations for one target. -/
structure JsonPatch where
  target : PatchTarget
  path : String
  unsupported : Dict Value := {}
deriving Repr, Inhabited, BEq

/-! ## Fragments -/

structure Fragment where
  apiVersion : Option String := none
  kind : Option String := none
  namePrefix : String := ""
  nameSuffix : String := ""
  nameSpace : String := ""
  commonLabels : Dict String := {}
  commonAnnotations : Dict String := {}
  strategicPatches : List String := []
  jsonPatches : List JsonPatch := []
  images : List Image := []
  vars : List Var := []
  resources : List String := []
  crds : List String := []
  /-- Other directories that this one builds on. Without a list, even an empty one, the fragment is
  not taken apart but used as a whole. -/
  bases : Option (List String) := none
  configMaps : List Generator := []
  secrets : List SecretGenerator := []
  generatorOptions : Option GeneratorOptions := none
  configurations : List String := []
  unsupported : Dict Value := {}
deriving Repr, Inhabited, BEq

namespace Fragment

/-- The file of a fragment in its directory. -/
def fileName : String := "kustomization.yaml"

def headerVersion : String := "kustomize.config.k8s.io/v1beta1"

def headerKind : String := "Kustomization"

/-- The fragment with its header set. -/
def withHeader (f : Fragment) : Fragment :=
  { f with apiVersion := some headerVersion, kind := some headerKind }

/-- A fragment with nothing but its header. -/
def blank : Fragment := withHeader {}

/-- Whether the fragment has nothing but its header. -/
def isBlank (f : Fragment) : Bool := f == blank

/-- The list with `s` at its end, unless it is in there, and whether it had to be put there. -/
def addOnce (s : String) (l : List String) : List String × Bool :=
  if s ∈ l then (l, false) else (l ++ [s], true)

/-- Registers a resource once. -/
def addResource (f : Fragment) (s : String) : Fragment × Bool :=
  let (l, added) := addOnce s f.resources
  ({ f with resources := l }, added)

/-- Registers a strategic patch once. -/
def addStrategicPatch (f : Fragment) (s : String) : Fragment × Bool :=
  let (l, added) := addOnce s f.strategicPatches
  ({ f with strategicPatches := l }, added)

/-- Registering leaves exactly the registered text behind, however often it is done. -/
theorem mem_addOnce (s t : String) (l : List String) :
    t ∈ (addOnce s l).1 ↔ t = s ∨ t ∈ l := by
  unfold addOnce
  split
  · rename_i h
    exact ⟨.inr, fun h' => h'.elim (fun e => e ▸ h) id⟩
  · simp [or_comm]

end Fragment
end LayeredConfig
