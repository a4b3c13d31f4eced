/-
Where a fragment has keys that cannot be folded. A key is located by the path to it, such as
`images[1].digestRef`; those of the fragment itself come first, the others in field order.
-/
import LayeredConfig.Fragment.Basic

namespace LayeredConfig

open Yaml (Value)

/-- An object with keys of its own: where it is, and its unsupported keys. -/
abbrev Scope := String × Dict Value

namespace Scope

/-- The locations of the keys; the outermost object has no name. -/
def locations (scope : Scope) : List String :=
  scope.2.keys.map fun key => if scope.1.isEmpty then key else scope.1 ++ "." ++ key

end Scope

namespace Fragment

/-- The name of the `i`-th object of a list. -/
def itemName (list : String) (i : Nat) : String := list ++ "[" ++ toString i ++ "]"

/-- The scopes of the objects of a list. -/
def itemScopes {α : Type} (list : String) (scopes : String → α → List Scope) (l : List α) :
    List Scope :=
  l.zipIdx.flatMap fun (a, i) => scopes (itemName list i) a

/-- Every object of the fragment that may have unsupported keys. -/
def scopes (f : Fragment) : List Scope :=
  [("", f.unsupported)] ++
  (f.generatorOptions.toList.map fun o => ("generatorOptions", o.unsupported)) ++
  itemScopes "patchesJson6902" (fun name p =>
    [(name, p.unsupported), (name ++ ".target", p.target.unsupported)]) f.jsonPatches ++
  itemScopes "images" (fun name i => [(name, i.unsupported)]) f.images ++
  itemScopes "vars" (fun name v =>
    [(name, v.unsupported), (name ++ ".objref", v.object.unsupported)] ++
      v.field.toList.map fun r => (name ++ ".fieldref", r.unsupported)) f.vars ++
  itemScopes "configMapGenerator" (fun name g => [(name, g.unsupported)]) f.configMaps ++
  itemScopes "secretGenerator" (fun name g => [(name, g.unsupported)]) f.secrets

/-- The locations of all keys that cannot be folded. -/
def unsupportedFields (f : Fragment) : List String := f.scopes.flatMap Scope.locations

end Fragment
end LayeredConfig
