/-
How each field of a layer is folded.

* name prefix, name suffix, name space and generator options: the first that is not empty wins;
* labels and annotations: the last value of each key wins;
* bases, resources, configurations and strategic patches: once for each rebased path;
* images and variables by name, custom resources as they are: the first of each identity wins;
* generators: one that creates is taken only if its name is new, any other always;
* patches of operations: always taken.
-/
import LayeredConfig.Fold.Basic
import LayeredConfig.Text.Lines

namespace LayeredConfig

/-! ## Rebasing the sources of a generator -/

namespace Generator

/-- Rebases a file entry, of which only the part after a key is a path. -/
def rebaseFile (site : Site) (field : Field) (file : String) : Except FoldError String :=
  match Text.cut '=' file.toList with
  | (key, some path) => do
    return String.ofList key ++ "=" ++ (← site.rebase field (String.ofList path))
  | (_, none) => site.rebase field file

/-- Rebases the files that a generator reads. -/
def rebase (site : Site) (field : Field) (g : Generator) : Except FoldError Generator := do
  let env ← g.env.mapM (site.rebase field)
  let envs ← g.envs.mapM (site.rebase field)
  let files ← g.files.mapM (rebaseFile site field)
  return { g with env, envs, files }

end Generator

/-- A kind of generator: how its shared part is taken out and put back. -/
structure GeneratorKind (γ : Type) where
  shared : γ → Generator
  withShared : γ → Generator → γ

namespace GeneratorKind

def configMap : GeneratorKind Generator := ⟨id, fun _ g => g⟩

def secret : GeneratorKind SecretGenerator :=
  ⟨SecretGenerator.toGenerator, fun s g => { s with toGenerator := g }⟩

end GeneratorKind

namespace Folding

/-- The generators that are taken, with their sources rebased. -/
def generators {γ : Type} (kind : GeneratorKind γ) (site : Site) (field : Field) :
    List γ → Folding (List γ)
  | [] => pure []
  | entry :: rest => do
    let g := kind.shared entry
    let isNew ← mark field g.name
    if g.behavior = .create ∧ !isNew then generators kind site field rest
    else
      let g ← lift (g.rebase site field)
      return kind.withShared entry g :: (← generators kind site field rest)

end Folding

/-! ## Policies -/

/-- How a field of a layer is folded. -/
abbrev Policy := Site → Fragment → Folding Unit

namespace Policy

open Folding (lift mark update unseenPaths firstOfEach)

/-- Adds a base to the result, which has a list of bases from then on. -/
def addBase (base : String) : Folding Unit :=
  update fun f => { f with bases := some (f.bases.getD [] ++ [base]) }

/-- A layer that builds on a base that is known must not become a base itself. -/
def basesOf (site : Site) : List String → Folding Unit
  | [] => pure ()
  | value :: rest => do
    let base ← lift (site.rebase .bases value)
    if ← mark .bases base then addBase base
    else
      let own ← lift (site.rebase .bases ".")
      discard (mark .bases own)
    basesOf site rest

def bases : Policy := fun site child => basesOf site (child.bases.getD [])

def firstNonEmpty (parent child : String) : String := if parent = "" then child else parent

def namePrefix : Policy := fun _ child =>
  update fun f => { f with namePrefix := firstNonEmpty f.namePrefix child.namePrefix }

def nameSuffix : Policy := fun _ child =>
  update fun f => { f with nameSuffix := firstNonEmpty f.nameSuffix child.nameSuffix }

def nameSpace : Policy := fun _ child =>
  update fun f => { f with nameSpace := firstNonEmpty f.nameSpace child.nameSpace }

/-- Meets every key. -/
def markAll (field : Field) (keys : List String) : Folding Unit :=
  keys.forM fun key => discard (mark field key)

def commonLabels : Policy := fun _ child => do
  update fun f => { f with commonLabels := f.commonLabels.merge child.commonLabels }
  markAll .commonLabels child.commonLabels.keys

def commonAnnotations : Policy := fun _ child => do
  update fun f => { f with commonAnnotations := f.commonAnnotations.merge child.commonAnnotations }
  markAll .commonAnnotations child.commonAnnotations.keys

def generatorOptions : Policy := fun _ child =>
  update fun f => { f with generatorOptions := f.generatorOptions.or child.generatorOptions }

def resources : Policy := fun site child => do
  let accepted ← unseenPaths site .resources child.resources
  update fun f => { f with resources := f.resources ++ accepted }

def configurations : Policy := fun site child => do
  let accepted ← unseenPaths site .configurations child.configurations
  update fun f => { f with configurations := f.configurations ++ accepted }

def strategicPatches : Policy := fun site child => do
  let accepted ← unseenPaths site .strategicPatches child.strategicPatches
  update fun f => { f with strategicPatches := f.strategicPatches ++ accepted }

def images : Policy := fun _ child => do
  let accepted ← firstOfEach .images (·.name) child.images
  update fun f => { f with images := f.images ++ accepted }

def crds : Policy := fun _ child => do
  let accepted ← firstOfEach .crds id child.crds
  update fun f => { f with crds := f.crds ++ accepted }

def vars : Policy := fun _ child => do
  let accepted ← firstOfEach .vars (·.name) child.vars
  update fun f => { f with vars := f.vars ++ accepted }

def configMaps : Policy := fun site child => do
  let accepted ← Folding.generators .configMap site .configMaps child.configMaps
  update fun f => { f with configMaps := f.configMaps ++ accepted }

def secrets : Policy := fun site child => do
  let accepted ← Folding.generators .secret site .secrets child.secrets
  update fun f => { f with secrets := f.secrets ++ accepted }

def jsonPatches : Policy := fun site child =>
  child.jsonPatches.forM fun p => do
    let path ← lift (site.rebase .jsonPatches p.path)
    update fun f => { f with jsonPatches := f.jsonPatches ++ [{ p with path }] }

/-- The policy of each field, in the order in which they are applied. -/
def all : List (Field × Policy) :=
  [(.bases, bases),
   (.namePrefix, namePrefix),
   (.nameSuffix, nameSuffix),
   (.nameSpace, nameSpace),
   (.commonLabels, commonLabels),
   (.commonAnnotations, commonAnnotations),
   (.generatorOptions, generatorOptions),
   (.resources, resources),
   (.images, images),
   (.crds, crds),
   (.configMaps, configMaps),
   (.secrets, secrets),
   (.vars, vars),
   (.strategicPatches, strategicPatches),
   (.jsonPatches, jsonPatches),
   (.configurations, configurations)]

end Policy
end LayeredConfig
