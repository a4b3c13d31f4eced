/-
The written form of config maps. A field that is given several times counts as it is given last,
and keys that are not known are passed over. What is left out is left out again when a config map
is written, but its version, its kind and its metadata are always there.
-/
import LayeredConfig.ConfigMap.Base64
import LayeredConfig.ConfigMap.Basic
import LayeredConfig.Yaml.Fields
import LayeredConfig.Yaml.Printer
import LayeredConfig.Yaml.Record

namespace LayeredConfig

open Yaml (Node Value Record Shape Error Scalar)
open Yaml.Value (Fields)
open Yaml.Value.Fields (always optional optionalText)

/-! ## Plain data -/

namespace Yaml.Value

/-- Numbers that no plain data can hold are nothing there. -/
def ofPlainFloat (x : Decimal.Double) : Value := if x.isFinite then .float x else .null

/-- A node as plain data: without tags, and with texts as keys, which are sorted. -/
def plain : Node → Except Error Value
  | .scalar tag style text => do
    match ← Value.ofNode false (.scalar tag style text) with
    | .float x => return ofPlainFloat x
    | v => return v
  | .seq tag items => do
    if (tag.bind ownTag?).isSome then throw .shape
    return .seq (← plainItems items)
  | .map tag entries => do
    if (tag.bind ownTag?).isSome then throw .shape
    return .map (ofDict (Dict.ofList (← plainEntries entries)))
where
  plainItems : List Node → Except Error (List Value)
    | [] => .ok []
    | x :: rest => do return (← plain x) :: (← plainItems rest)
  plainEntries : List (Node × Node) → Except Error (List (String × Value))
    | [] => .ok []
    | (k, v) :: rest => do return (← k.text, ← plain v) :: (← plainEntries rest)

end Yaml.Value

/-! ## Reading -/

namespace Timestamp

def ofNode (n : Node) : Except Error Timestamp := do
  match parse? (← n.text) with
  | some t => return t
  | none => throw .shape

end Timestamp

namespace OwnerReference

def fieldNames : List String :=
  ["apiVersion", "blockOwnerDeletion", "controller", "kind", "name", "uid"]

def ofNode (n : Node) : Except Error OwnerReference := do
  let r ← Record.ofRepeating fieldNames n
  return {
    apiVersion := (← r.last? "apiVersion" Node.text).getD ""
    blockOwnerDeletion := ← r.last? "blockOwnerDeletion" Node.flag
    controller := ← r.last? "controller" Node.flag
    kind := (← r.last? "kind" Node.text).getD ""
    name := (← r.last? "name" Node.text).getD ""
    uid := (← r.last? "uid" Node.text).getD "" }

end OwnerReference

namespace ManagedFields

def fieldNames : List String :=
  ["apiVersion", "fieldsType", "fieldsV1", "manager", "operation", "subresource", "time"]

def ofNode (n : Node) : Except Error ManagedFields := do
  let r ← Record.ofRepeating fieldNames n
  return {
    apiVersion := ← r.last? "apiVersion" Node.text
    fieldsType := ← r.last? "fieldsType" Node.text
    fields := ← r.last? "fieldsV1" Value.plain
    manager := ← r.last? "manager" Node.text
    operation := ← r.last? "operation" Node.text
    subresource := ← r.last? "subresource" Node.text
    time := ← r.last? "time" Timestamp.ofNode }

end ManagedFields

namespace Metadata

def fieldNames : List String :=
  ["annotations", "creationTimestamp", "deletionGracePeriodSeconds", "deletionTimestamp",
   "finalizers", "generateName", "generation", "labels", "managedFields", "name", "namespace",
   "ownerReferences", "resourceVersion", "selfLink", "uid"]

def ofNode (n : Node) : Except Error Metadata := do
  let r ← Record.ofRepeating fieldNames n
  return {
    annotations := ← r.last? "annotations" Node.textDict
    creationTimestamp := ← r.last? "creationTimestamp" Timestamp.ofNode
    deletionGracePeriodSeconds := ← r.last? "deletionGracePeriodSeconds" Node.integer
    deletionTimestamp := ← r.last? "deletionTimestamp" Timestamp.ofNode
    finalizers := ← r.last? "finalizers" Node.texts
    generateName := ← r.last? "generateName" Node.text
    generation := ← r.last? "generation" Node.integer
    labels := ← r.last? "labels" Node.textDict
    managedFields := ← r.last? "managedFields" (Node.list ManagedFields.ofNode)
    name := ← r.last? "name" Node.text
    nameSpace := ← r.last? "namespace" Node.text
    ownerReferences := ← r.last? "ownerReferences" (Node.list OwnerReference.ofNode)
    resourceVersion := ← r.last? "resourceVersion" Node.text
    selfLink := ← r.last? "selfLink" Node.text
    uid := ← r.last? "uid" Node.text }

end Metadata

namespace ConfigMap

def fieldNames : List String :=
  ["apiVersion", "kind", "binaryData", "data", "immutable", "metadata"]

/-- The keys that are read. -/
def shape : Shape :=
  let fields (names : List String) : Shape := .fields (names.map fun name => (name, .whole))
  let metadata : List (String × Shape) := Metadata.fieldNames.map fun name =>
    (name,
      if name = "managedFields" then .items (fields ManagedFields.fieldNames)
      else if name = "ownerReferences" then .items (fields OwnerReference.fieldNames)
      else .whole)
  .fields (fieldNames.map fun name => (name, if name = "metadata" then .fields metadata else .whole))

/-- A text that has to be a certain one. -/
def expected (s : String) (n : Node) : Except Error Unit := do
  if (← n.text) = s then return () else throw .shape

/-- A text that has to be bytes as they are written. -/
def bytes (n : Node) : Except Error String := do
  let s ← n.text
  if Base64.isWritten s.toList then return s else throw .shape

/-- A dictionary of bytes. -/
def bytesDict (n : Node) : Except Error (Dict String) := do
  return Dict.ofList (← (← n.entries).mapM fun (k, v) => return (← k.text, ← bytes v))

def ofNode (n : Node) : Except Error ConfigMap := do
  let r ← Record.ofRepeating fieldNames n
  r.known.forM fun (name, n) =>
    if name = "apiVersion" then expected apiVersion n
    else if name = "kind" then expected kind n
    else return ()
  return {
    binaryData := ← r.last? "binaryData" bytesDict
    data := ← r.last? "data" Node.textDict
    isFixed := ← r.last? "immutable" Node.flag
    metadata := (← r.last? "metadata" Metadata.ofNode).getD {} }

/-- The config map of a YAML text. -/
def parse (text : String) : Except Error ConfigMap := do
  ofNode ((← Yaml.parse shape text).getD Node.empty)

end ConfigMap

/-! ## Writing -/

namespace Timestamp

def toValue (t : Timestamp) : Value := .string t.print

end Timestamp

namespace OwnerReference

def toValue (o : OwnerReference) : Value :=
  .map <|
    always "apiVersion" (.string o.apiVersion) ++
    optional "blockOwnerDeletion" .bool o.blockOwnerDeletion ++
    optional "controller" .bool o.controller ++
    always "kind" (.string o.kind) ++
    always "name" (.string o.name) ++
    always "uid" (.string o.uid)

end OwnerReference

namespace ManagedFields

def toValue (m : ManagedFields) : Value :=
  .map <|
    optionalText "apiVersion" m.apiVersion ++
    optionalText "fieldsType" m.fieldsType ++
    optional "fieldsV1" id m.fields ++
    optionalText "manager" m.manager ++
    optionalText "operation" m.operation ++
    optionalText "subresource" m.subresource ++
    optional "time" Timestamp.toValue m.time

end ManagedFields

namespace Metadata

def toValue (m : Metadata) : Value :=
  .map <|
    optional "annotations" Value.ofTextDict m.annotations ++
    optional "creationTimestamp" Timestamp.toValue m.creationTimestamp ++
    optional "deletionGracePeriodSeconds" .int m.deletionGracePeriodSeconds ++
    optional "deletionTimestamp" Timestamp.toValue m.deletionTimestamp ++
    optional "finalizers" Value.texts m.finalizers ++
    optionalText "generateName" m.generateName ++
    optional "generation" .int m.generation ++
    optional "labels" Value.ofTextDict m.labels ++
    optional "managedFields" (fun l => .seq (l.map ManagedFields.toValue)) m.managedFields ++
    optionalText "name" m.name ++
    optionalText "namespace" m.nameSpace ++
    optional "ownerReferences" (fun l => .seq (l.map OwnerReference.toValue)) m.ownerReferences ++
    optionalText "resourceVersion" m.resourceVersion ++
    optionalText "selfLink" m.selfLink ++
    optionalText "uid" m.uid

end Metadata

namespace ConfigMap

def toValue (m : ConfigMap) : Value :=
  .map <|
    always "apiVersion" (.string apiVersion) ++
    always "kind" (.string kind) ++
    optional "binaryData" Value.ofTextDict m.binaryData ++
    optional "data" Value.ofTextDict m.data ++
    optional "immutable" .bool m.isFixed ++
    always "metadata" m.metadata.toValue

/-- The YAML text of a config map. -/
def print (m : ConfigMap) : Except Error String := m.toValue.print

end ConfigMap
end LayeredConfig
