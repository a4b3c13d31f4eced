/-
Stacks: directories with a fragment that does no more than point at a package. The fragment may be
there before, with parameters for the package, and then only gets the pointer.
-/
import LayeredConfig.Fragment.File

namespace LayeredConfig

inductive StackError where
  | createDirectory (path : Path) (cause : FileError)
  | load (cause : Fragment.LoadError)
  | save (cause : Fragment.SaveError)
deriving DecidableEq, Repr, Inhabited

namespace StackError

def message : StackError → String
  | createDirectory path _ => "failed to create stack directory " ++ path.quoted
  | load cause => "failed to load stack fragment: " ++ cause.message
  | save cause => "failed to write stack fragment: " ++ cause.message

end StackError

/-- Makes sure that a directory has a fragment that lists `base` as a resource. The answer is the
file of the fragment. -/
def registerStack (dir : Path) (base : String) : Files StackError Path := do
  if !(← Files.isDirectory dir) then
    (Files.createDirectories dir).explain (.createDirectory dir)
  let f ← (Fragment.load dir).explain .load
  let f := ((f.getD {}).withHeader.addResource base).1
  (f.save dir).explain .save

end LayeredConfig
