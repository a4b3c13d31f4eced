/-
Fragments in their directories.
-/
import LayeredConfig.Document
import LayeredConfig.Fragment.Reader
import LayeredConfig.Fragment.Printer

namespace LayeredConfig
namespace Fragment

/-- The fragment of a directory could not be read. -/
structure LoadError where
  dir : Path
  cause : DocumentError
deriving DecidableEq, Repr, Inhabited

/-- A fragment could not be written. -/
structure SaveError where
  path : Path
  cause : DocumentError
deriving DecidableEq, Repr, Inhabited

def LoadError.message (e : LoadError) : String :=
  "failed to load fragment from " ++ e.dir.quoted ++ ": " ++ e.cause.message

def SaveError.message (e : SaveError) : String :=
  "failed to write fragment to " ++ e.path.quoted ++ ": " ++ e.cause.message

/-- The file of a directory's fragment. -/
def file (dir : Path) : Path := dir / .ofString fileName

/-- The fragment of a directory, if it has one. -/
def load (dir : Path) : Files LoadError (Option Fragment) :=
  (Document.load parse (file dir)).explain (⟨dir, ·⟩)

/-- Makes `f` the fragment of a directory. The answer is the file written. -/
def save (dir : Path) (f : Fragment) : Files SaveError Path := do
  (Document.save (file dir) f.print).explain (⟨file dir, ·⟩)
  return file dir

end Fragment
end LayeredConfig
