/-
Deployments in files.
-/
import LayeredConfig.Deployment.Text
import LayeredConfig.Document

namespace LayeredConfig
namespace Deployment

inductive LoadError where
  | read (cause : DocumentError)
  | missing (path : Path)
deriving DecidableEq, Repr, Inhabited

def LoadError.message : LoadError → String
  | read cause => "failed to read deployment configuration: " ++ cause.message
  | missing path => "deployment configuration " ++ path.quoted ++ " does not exist"

/-- The deployment in a file, which has to exist. -/
def load (path : Path) : Files LoadError Deployment := do
  match ← (Document.load parse path).explain .read with
  | some d => return d
  | none => throw (.missing path)

end Deployment
end LayeredConfig
