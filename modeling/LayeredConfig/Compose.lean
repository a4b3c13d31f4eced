/-
Composing a component: its layers are located, their parameters are filled in, they are folded into
one fragment, the patches of that are combined, and it is written to the directory of the component.
-/
import LayeredConfig.Aggregate
import LayeredConfig.Deployment.Basic
import LayeredConfig.Fold.Layer
import LayeredConfig.Locate
import LayeredConfig.Parameters.File

namespace LayeredConfig

inductive ComposeError where
  | locate (component : Path) (cause : LocateError)
  | parameters (component : Path) (cause : Parameters.FileFault)
  | fold (dir : Path) (cause : FoldError)
  | aggregate (component : Path) (cause : AggregateError)
  | save (component : Path) (cause : Fragment.SaveError)
deriving DecidableEq, Repr

namespace ComposeError

def message : ComposeError → String
  | locate component cause =>
    "failed to locate the fragments of component " ++ component.quoted ++ ": " ++ cause.message
  | parameters component cause =>
    "failed to rewrite the parameters of component " ++ component.quoted ++ ": " ++ cause.message
  | fold dir cause => "failed to merge fragment in " ++ dir.quoted ++ ": " ++ cause.message
  | aggregate component cause =>
    "failed to aggregate the JSON patches of component " ++ component.quoted ++ ": " ++
      cause.message
  | save component cause =>
    "failed to write the fragment of component " ++ component.quoted ++ ": " ++ cause.message

end ComposeError

/-- What became of a component. -/
inductive Outcome where
  /-- Its fragment was composed and written to this file. -/
  | composed (path : Path)
  /-- It has no base, so its fragment was left alone. -/
  | final
deriving DecidableEq, Repr, Inhabited

namespace Component

/-! ## Folding the layers -/

/-- Folds layers one after the other. -/
def foldLayers (root : Path) : List Layer → Accumulator → Except ComposeError Accumulator
  | [], acc => .ok acc
  | layer :: rest, acc => match (layer.fold root).run acc with
    | .ok _ acc => foldLayers root rest acc
    | .error e _ => .error (.fold layer.dir e)

/-- The parameter that decides on the name space. -/
def nameSpaceParameter : String := "namespace"

/-- The name space of a composed fragment: the one that the parameters give, else the one that the
layers give, else that of the deployment. -/
def nameSpace (d : Deployment) (parameters : List Parameter) (folded : String) : String :=
  match ((Parameter.dict parameters).find? nameSpaceParameter).filter (· ≠ "") with
  | some s => s
  | none => if folded = "" then d.nameSpace else folded

/-- Folds a base and overlays into a fragment for the directory `root`. -/
def merge (d : Deployment) (root : Path) (base : Layer) (overlays : List Layer)
    (parameters : List Parameter) : Except ComposeError Fragment := do
  let f := (← foldLayers root (base :: overlays) .blank).fragment
  return { f with nameSpace := nameSpace d parameters f.nameSpace }

/-! ## Composing -/

/-- Composes a component with some of its overlays. -/
def compose (draws : Parameters.Draws) (d : Deployment) (component : Path) (overlays : List String)
    (parameters : List Parameter) : Files ComposeError Outcome := do
  match ← (locate component overlays).explain (.locate component) with
  | .final _ => return .final
  | .layered base overlays =>
    let overrides := Parameter.dict parameters
    (base :: overlays).forM fun layer => discard <|
      (Parameters.fillFile draws layer.dir overrides d).explain (.parameters component)
    let folded ← Files.ask fun _ => merge d component base overlays parameters
    let f ← (folded.aggregate component).explain (.aggregate component)
    let path ← (f.save component).explain (.save component)
    return .composed path

end Component

namespace Deployment

/-- An application could not be composed. -/
structure GenerateError where
  application : String
  cause : ComposeError
deriving DecidableEq, Repr

def GenerateError.message (e : GenerateError) : String :=
  "failed to generate application " ++ Text.quoted e.application ++ ": " ++ e.cause.message

/-- Composes every application, each in its directory below `root`. -/
def generate (draws : Parameters.Draws) (d : Deployment) (root : Path) :
    Files GenerateError (List Outcome) :=
  d.applications.mapM fun a =>
    (Component.compose draws d (root / .ofString a.name) a.overlays a.parameters).explain (⟨a.name, ·⟩)

end Deployment
end LayeredConfig
