/-
Setting parameters through config maps. The parameters of an application are the texts of a config
map, which is a patch that its fragment registers. The directory, the fragment and the patch are
created as they are needed, and setting a parameter again to the same value changes nothing.
-/
import LayeredConfig.ConfigMap.Text
import LayeredConfig.Deployment.Basic
import LayeredConfig.Fragment.File

namespace LayeredConfig

inductive InjectError where
  | createDirectory (path : Path) (cause : FileError)
  | load (cause : Fragment.LoadError)
  | register (app : String) (cause : Fragment.SaveError)
  | read (cause : DocumentError)
  | write (cause : DocumentError)
deriving DecidableEq, Repr, Inhabited

namespace InjectError

def message : InjectError → String
  | createDirectory path _ => "failed to create directory " ++ path.quoted
  | load cause => "failed to load fragment: " ++ cause.message
  | register app cause =>
    "failed to register config map patch for application " ++ Text.quoted app ++ ": " ++
      cause.message
  | read cause => "failed to read config map patch: " ++ cause.message
  | write cause => "failed to write config map patch: " ++ cause.message

end InjectError

namespace ConfigMap

/-- Sets a parameter of an application in the config map of a directory. -/
def inject (dir : Path) (app param value : String) : Files InjectError Unit := do
  if !(← Files.isDirectory dir) then
    (Files.createDirectories dir).explain (.createDirectory dir)
  let file := fileFor app
  let f ← (Fragment.load dir).explain .load
  let (f, added) := (f.getD .blank).addStrategicPatch file
  if added then discard ((f.save dir).explain (.register app))
  let path := dir / .ofString file
  let m ← (Document.load parse path).explain .read
  let m := (m.getD (blank app)).setText param value
  (Document.save path m.print).explain .write

end ConfigMap

namespace Deployment

inductive SetError where
  /-- The applications are in stacks, but there is no directory for the stacks. -/
  | missingAppDir (app : String)
  | inject (app param : String) (cause : InjectError)
deriving DecidableEq, Repr, Inhabited

namespace SetError

def message : SetError → String
  | missingAppDir app =>
    "cannot set parameter of application " ++ Text.quoted app ++
      ": the configuration uses stacks but has no appDir"
  | inject app param cause =>
    "failed to set parameter " ++ Text.quoted param ++ " of application " ++ Text.quoted app ++
      ": " ++ cause.message

end SetError

/-- The directory of the stack that an application is in. -/
def stackDir (appDir app : String) : Path :=
  .ofString appDir / .ofString stacksDir / .ofString (stackOf app)

/-- Sets a parameter of an application: in the config map of its stack if there are stacks, and in
the deployment itself otherwise. The answer is the deployment afterwards. -/
def set (d : Deployment) (app param value : String) : Files SetError Deployment :=
  if d.usesStacks then
    match d.appDir.filter (· ≠ "") with
    | none => throw (.missingAppDir app)
    | some appDir => do
      (ConfigMap.inject (stackDir appDir app) app param value).explain (.inject app param)
      return d
  else return (d.set? app param value).getD d

end Deployment
end LayeredConfig
