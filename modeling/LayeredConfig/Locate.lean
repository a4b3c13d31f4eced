/-
Finding the layers of a component: the base in its directory `base`, and of the overlays asked for
those that exist in its directory `overlays`. A component without a base has a fragment of its own,
which is used as it is.
-/
import LayeredConfig.Fold.Basic
import LayeredConfig.Fragment.File

namespace LayeredConfig

inductive LocateError where
  | load (component : Path) (cause : Fragment.LoadError)
  /-- There is neither a base nor a fragment of the component's own. -/
  | missing (component : Path)
  /-- The directory of an overlay has no fragment. -/
  | missingOverlay (overlay : String) (component : Path)
deriving DecidableEq, Repr, Inhabited

namespace LocateError

def message : LocateError → String
  | load component cause =>
    "failed to load fragment of component " ++ component.quoted ++ ": " ++ cause.message
  | missing component =>
    "component " ++ component.quoted ++ " has neither a base fragment nor a " ++
      Fragment.fileName ++ " of its own"
  | missingOverlay overlay component =>
    "overlay " ++ Text.quoted overlay ++ " of component " ++ component.quoted ++ " has no " ++
      Fragment.fileName

end LocateError

/-- What a component consists of. -/
inductive Located where
  | final (fragment : Fragment)
  | layered (base : Layer) (overlays : List Layer)
deriving Repr, Inhabited

namespace Component

def baseDir (component : Path) : Path := component / .ofString "base"

def overlayDir (component : Path) (overlay : String) : Path :=
  component / .ofString "overlays" / .ofString overlay

/-- The fragment of a directory of the component. -/
def load (component dir : Path) : Files LocateError (Option Fragment) :=
  (Fragment.load dir).explain (.load component)

/-- The layers of the overlays that exist, in the order in which they are asked for. -/
def locateOverlays (component : Path) : List String → Files LocateError (List Layer)
  | [] => pure []
  | overlay :: rest => do
    let dir := overlayDir component overlay
    if ← Files.isDirectory dir then
      match ← load component dir with
      | none => throw (.missingOverlay overlay component)
      | some fragment => return ⟨dir, fragment⟩ :: (← locateOverlays component rest)
    else locateOverlays component rest

/-- Finds the layers of a component. -/
def locate (component : Path) (overlays : List String) : Files LocateError Located := do
  match ← load component (baseDir component) with
  | some base => return .layered ⟨baseDir component, base⟩ (← locateOverlays component overlays)
  | none => match ← load component component with
    | some own => return .final own
    | none => throw (.missing component)

end Component
end LayeredConfig
