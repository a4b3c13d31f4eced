/-
Finding the location that a path names. The parts of the path are followed from the left, and each
step needs a directory to start from, so a path through a missing directory or through a file leads
nowhere, even if a later `..` leaves it again. The last name need not exist: a file may be created
there.
-/
import LayeredConfig.FileTree.Basic

namespace LayeredConfig
namespace FileTree

/-- The longest name of a directory entry, in bytes. -/
def nameLimit : Nat := 255

/-- A path has to be shorter than this, in bytes. -/
def pathLimit : Nat := 4096

/-- One step of a walk. -/
def step (t : FileTree) (loc : Location) (part : Path.Part) : Except FileError Location :=
  match part with
  | .root => .ok []
  | part => match t.get? loc with
    | none => .error .notFound
    | some (.file _) => .error .notADirectory
    | some .directory => match part with
      | .name n => if n.size > nameLimit then .error .nameTooLong else .ok (loc ++ [n])
      | .up => .ok loc.dropLast
      | _ => .ok loc

/-- The location of the parts of a path. -/
def walk (t : FileTree) (parts : List Path.Part) : Except FileError Location :=
  parts.foldlM t.step t.home

/-- Refuses a path that the system refuses whatever is there. -/
def checkPath (p : Path) : Except FileError Unit :=
  if .char '\x00' ∈ p.units then .error .badPath
  else if p.units = [] then .error .notFound
  else if Name.size p.units ≥ pathLimit then .error .nameTooLong
  else .ok ()

/-- Whether the spelling of the path says that it names a directory. -/
def namesDirectory (p : Path) : Bool :=
  match (Path.pieces p.units).getLast? with
  | some piece => piece = [] || piece = Path.dot || piece = Path.dotDot
  | none => false

/-- The location that a path names, whether or not something is there. -/
def find (t : FileTree) (p : Path) : Except FileError Location := do
  checkPath p
  t.walk p.parts

/-- Whether the path names a directory. -/
def isDirectory (t : FileTree) (p : Path) : Bool :=
  match t.find p with
  | .ok loc => t.get? loc = some .directory
  | .error _ => false

end FileTree
end LayeredConfig
