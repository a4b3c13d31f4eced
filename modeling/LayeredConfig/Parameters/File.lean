/-
The parameter file of a directory.
-/
import LayeredConfig.FileTree.Access
import LayeredConfig.Parameters.Fill

namespace LayeredConfig
namespace Parameters

def fileName : String := "params.env"

/-- The random numbers for the lines of every parameter file. -/
abbrev Draws := Path → Nat → UInt32

inductive FileFault where
  | notRead (path : Path) (cause : FileError)
  | notWritten (path : Path) (cause : FileError)
deriving DecidableEq, Repr, Inhabited

def FileFault.message : FileFault → String
  | .notRead path _ => "failed to read parameter file " ++ path.quoted
  | .notWritten path _ => "failed to write parameter file " ++ path.quoted

/-- Fills in values in the parameter file of a directory. The answer is whether there is one. -/
def fillFile (draws : Draws) (dir : Path) (overrides : Dict String) (d : Deployment) :
    Files FileFault Bool := do
  let path := dir / .ofString fileName
  let text? ← Files.ask fun t => match t.read path with
    | .ok s => .ok (some s)
    | .error .notFound => .ok none
    | .error e => .error (FileFault.notRead path e)
  match text? with
  | none => return false
  | some s =>
    (Files.write path (fill (draws path) overrides d s)).explain (.notWritten path)
    return true

end Parameters
end LayeredConfig
