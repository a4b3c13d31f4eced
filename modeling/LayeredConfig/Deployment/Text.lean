/-
The written form of a deployment. Keys that are not known are passed over, whatever they hold.
-/
import LayeredConfig.Deployment.Basic
import LayeredConfig.Yaml.Fields
import LayeredConfig.Yaml.Printer
import LayeredConfig.Yaml.Record

namespace LayeredConfig

open Yaml (Node Value Record Shape Error)
open Yaml.Value (Fields)
open Yaml.Value.Fields (always optionalText text list textList)

/-! ## Reading -/

namespace Parameter

def ofNode (n : Node) : Except Error Parameter := do
  let r ← Record.ofNode ["name", "value"] n
  return { name := ← r.required "name" Node.text, value := ← r.getD "value" "" Node.text }

end Parameter

namespace Application

def ofNode (n : Node) : Except Error Application := do
  let r ← Record.ofNode ["name", "overlays", "parameters"] n
  return {
    name := ← r.required "name" Node.text
    overlays := ← r.getD "overlays" [] Node.texts
    parameters := ← r.getD "parameters" [] (Node.list Parameter.ofNode) }

end Application

namespace Deployment

/-- The keys that are read. -/
def shape : Shape :=
  .fields [
    ("apiVersion", .whole),
    ("kind", .whole),
    ("metadata", .fields [("name", .whole), ("namespace", .whole)]),
    ("spec", .fields [
      ("appDir", .whole),
      ("project", .whole),
      ("applications", .items (.fields [
        ("name", .whole),
        ("overlays", .whole),
        ("parameters", .items (.fields [("name", .whole), ("value", .whole)]))]))])]

def ofNode (n : Node) : Except Error Deployment := do
  let r ← Record.ofNode ["apiVersion", "kind", "metadata", "spec"] n
  let metadata ← r.getD "metadata" Node.empty pure
  let metadata ← Record.ofNode ["name", "namespace"] metadata
  let spec ← r.getD "spec" Node.empty pure
  let spec ← Record.ofNode ["appDir", "project", "applications"] spec
  return {
    apiVersion := ← r.get? "apiVersion" Node.text
    kind := ← r.get? "kind" Node.text
    name := ← metadata.getD "name" "" Node.text
    nameSpace := ← metadata.getD "namespace" "" Node.text
    appDir := ← spec.get? "appDir" Node.text
    project := ← spec.getD "project" "" Node.text
    applications := ← spec.getD "applications" [] (Node.list Application.ofNode) }

/-- The deployment of a YAML text. -/
def parse (text : String) : Except Error Deployment := do
  ofNode ((← Yaml.parse shape text).getD Node.empty)

end Deployment

/-! ## Writing -/

namespace Parameter

def toValue (p : Parameter) : Value :=
  .map (always "name" (.string p.name) ++ always "value" (.string p.value))

end Parameter

namespace Application

def toValue (a : Application) : Value :=
  .map <|
    always "name" (.string a.name) ++
    textList "overlays" a.overlays ++
    list "parameters" Parameter.toValue a.parameters

end Application

namespace Deployment

def toValue (d : Deployment) : Value :=
  .map <|
    optionalText "apiVersion" d.apiVersion ++
    optionalText "kind" d.kind ++
    always "metadata" (.map <|
      always "name" (.string d.name) ++ always "namespace" (.string d.nameSpace)) ++
    always "spec" (.map <|
      optionalText "appDir" d.appDir ++
      text "project" d.project ++
      always "applications" (.seq (d.applications.map Application.toValue)))

/-- The YAML text of a deployment. -/
def print (d : Deployment) : Except Error String := d.toValue.print

end Deployment
end LayeredConfig
