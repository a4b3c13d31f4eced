/-
The fields of a fragment that can be folded, and the ledger of what a fold has accepted in each.
-/

namespace LayeredConfig

/-- A field with a rule for folding it. -/
inductive Field where
  | bases
  | namePrefix
  | nameSuffix
  | nameSpace
  | commonLabels
  | commonAnnotations
  | generatorOptions
  | resources
  | images
  | crds
  | configMaps
  | secrets
  | vars
  | strategicPatches
  | jsonPatches
  | configurations
deriving DecidableEq, Repr, Inhabited

namespace Field

/-- The key of the field. -/
def key : Field → String
  | bases => "bases"
  | namePrefix => "namePrefix"
  | nameSuffix => "nameSuffix"
  | nameSpace => "namespace"
  | commonLabels => "commonLabels"
  | commonAnnotations => "commonAnnotations"
  | generatorOptions => "generatorOptions"
  | resources => "resources"
  | images => "images"
  | crds => "crds"
  | configMaps => "configMapGenerator"
  | secrets => "secretGenerator"
  | vars => "vars"
  | strategicPatches => "patchesStrategicMerge"
  | jsonPatches => "patchesJson6902"
  | configurations => "configurations"

end Field

/-- For each field, the identities of the entries that a fold has met, each once. -/
structure Ledger where
  seen : Field → List String
  nodup : ∀ f, (seen f).Nodup

namespace Ledger

def empty : Ledger := ⟨fun _ => [], fun _ => .nil⟩

instance : Inhabited Ledger := ⟨empty⟩
instance : EmptyCollection Ledger := ⟨empty⟩

def contains (l : Ledger) (f : Field) (key : String) : Bool := key ∈ l.seen f

/-- How many identities have been met. -/
def count (l : Ledger) (f : Field) : Nat := (l.seen f).length

/-- The ledger with `key` met. -/
def add (l : Ledger) (f : Field) (key : String) : Ledger :=
  let known := l.seen f
  if h : key ∈ known then l
  else
    let known' := known ++ [key]
    { seen := fun g => if g = f then known' else l.seen g
      nodup := by
        intro g
        split
        · refine List.nodup_append.2 ⟨l.nodup f, by simp, ?_⟩
          intro a ha b hb
          simp only [List.mem_singleton] at hb
          subst hb
          rintro rfl
          exact h ha
        · exact l.nodup g }

/-- Meets `key`. The answer is whether this is for the first time. -/
def mark (l : Ledger) (f : Field) (key : String) : Ledger × Bool :=
  (l.add f key, !l.contains f key)

end Ledger
end LayeredConfig
