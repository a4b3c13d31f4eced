/-
Reading a value that is relative to one directory from another one. The result is what is left of
the value's location below the new directory, with `/` between the names; the directory itself is
`.`. A value that points elsewhere has no such form, and neither has one whose names are not text.
-/
import LayeredConfig.Path.Location

namespace LayeredConfig
namespace Path

inductive RebaseError where
  | outsideRoot (path root : Path)
  | notText (path : Path)
deriving DecidableEq, Repr

namespace RebaseError

def message : RebaseError → String
  | .outsideRoot path root =>
    "path " ++ path.quoted ++ " is not located below the component root " ++ root.quoted
  | .notText path => "path " ++ path.quoted ++ " is not valid UTF-8"

end RebaseError

/-- What is left of the location `loc` below `base`. -/
def below? (base loc : List Part) : Option (List Part) := base.isPrefixOf? loc

/-- A location below some directory, as text relative to that directory. -/
def relativeText? (rest : List Part) : Option String :=
  (rest.mapM fun part : Part => part.spelling.text?).map fun
    | [] => "."
    | names => "/".intercalate names

/-- What `value`, which is relative to `dir`, is relative to `root`. -/
def rebase (root dir : Path) (value : String) : Except RebaseError String :=
  let base := root.location
  let loc := (dir / ofString value).location
  match below? base loc with
  | none => .error (.outsideRoot (ofParts loc) (ofParts base))
  | some rest => match relativeText? rest with
    | none => .error (.notText (ofParts loc))
    | some text => .ok text

end Path
end LayeredConfig
