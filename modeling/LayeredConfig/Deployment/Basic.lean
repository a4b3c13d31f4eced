/-
Deployments: which applications are composed, with which overlays and which parameters. Names need
not be unique; an application is found as the first one of its name, and so is a parameter.
-/
import LayeredConfig.Dict

namespace LayeredConfig

structure Parameter where
  name : String
  value : String := ""
deriving DecidableEq, Repr, Inhabited

/-- Parameters as a dictionary; of several with one name the last counts. -/
def Parameter.dict (parameters : List Parameter) : Dict String :=
  Dict.ofList (parameters.map fun p => (p.name, p.value))

structure Application where
  name : String
  /-- The overlays to apply, in this order. -/
  overlays : List String := []
  parameters : List Parameter := []
deriving DecidableEq, Repr, Inhabited

structure Deployment where
  apiVersion : Option String := none
  kind : Option String := none
  name : String := ""
  nameSpace : String := ""
  /-- The directory that the stacks are laid out in. -/
  appDir : Option String := none
  project : String := ""
  applications : List Application := []
deriving DecidableEq, Repr, Inhabited

/-! ## Looking up -/

namespace Application

def parameter? (a : Application) (name : String) : Option String :=
  (a.parameters.find? (·.name = name)).map (·.value)

end Application

namespace Deployment

def application? (d : Deployment) (name : String) : Option Application :=
  d.applications.find? (·.name = name)

/-- The value of a parameter of an application. -/
def parameter? (d : Deployment) (app param : String) : Option String :=
  (d.application? app).bind (·.parameter? param)

/-! ## Setting a parameter -/

/-- Changes the first entry that satisfies `p`, if there is one. -/
def updateFirst? {α : Type} (p : α → Bool) (f : α → α) : List α → Option (List α)
  | [] => none
  | a :: rest => if p a then some (f a :: rest) else (updateFirst? p f rest).map (a :: ·)

/-- Gives a parameter a value, at its place in the list or at the end. -/
def setParameter (name value : String) (ps : List Parameter) : List Parameter :=
  match updateFirst? (·.name = name) (fun p => { p with value }) ps with
  | some ps => ps
  | none => ps ++ [⟨name, value⟩]

/-- Sets a parameter of an application; none if there is no such application. -/
def set? (d : Deployment) (app param value : String) : Option Deployment :=
  let change (a : Application) := { a with parameters := setParameter param value a.parameters }
  (updateFirst? (·.name = app) change d.applications).map fun l => { d with applications := l }

/-! ## Stacks -/

/-- The application that stands for a stack of most others. -/
def appsStack : String := "kubeflow-apps"

/-- The directory, inside the one for stacks, with a directory for each stack. -/
def stacksDir : String := "kustomize"

/-- Whether the applications are collected into stacks. -/
def usesStacks (d : Deployment) : Bool := (d.application? appsStack).isSome

/-- The stacks of the applications that are known. -/
def knownStacks : List (String × String) :=
  [("centraldashboard", appsStack),
   ("cloud-endpoints", "cloud-endpoints"),
   ("default-install", appsStack),
   ("istio-stack", "istio-stack"),
   ("iap-ingress", "iap-ingress"),
   ("jupyter-web-app", appsStack),
   ("metacontroller", "metacontroller"),
   ("profiles", appsStack),
   ("dex", "dex"),
   ("spartakus", "spartakus"),
   ("aws-alb-ingress-controller", appsStack),
   ("istio-ingress", "istio-ingress")]

/-- The directory of the stack that an application is in; one that is not known is in a stack of
its own name. -/
def stackOf (app : String) : String := (knownStacks.lookup app).getD app

end Deployment
end LayeredConfig
