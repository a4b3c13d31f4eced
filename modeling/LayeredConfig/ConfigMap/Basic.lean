/-
Config maps: named texts and bytes, with what a cluster knows about the object that holds them.
-/
import LayeredConfig.ConfigMap.Timestamp
import LayeredConfig.Dict
import LayeredConfig.Yaml.Value

namespace LayeredConfig

open Yaml (Value)

/-- Another object that this one belongs to. -/
structure OwnerReference where
  apiVersion : String := ""
  blockOwnerDeletion : Option Bool := none
  controller : Option Bool := none
  kind : String := ""
  name : String := ""
  uid : String := ""
deriving DecidableEq, Repr, Inhabited

/-- Which fields of the object a manager has set. -/
structure ManagedFields where
  apiVersion : Option String := none
  fieldsType : Option String := none
  fields : Option Value := none
  manager : Option String := none
  operation : Option String := none
  subresource : Option String := none
  time : Option Timestamp := none
deriving Repr, Inhabited, BEq

structure Metadata where
  annotations : Option (Dict String) := none
  creationTimestamp : Option Timestamp := none
  deletionGracePeriodSeconds : Option Int := none
  deletionTimestamp : Option Timestamp := none
  finalizers : Option (List String) := none
  generateName : Option String := none
  generation : Option Int := none
  labels : Option (Dict String) := none
  managedFields : Option (List ManagedFields) := none
  name : Option String := none
  nameSpace : Option String := none
  ownerReferences : Option (List OwnerReference) := none
  resourceVersion : Option String := none
  selfLink : Option String := none
  uid : Option String := none
deriving Repr, Inhabited, BEq

structure ConfigMap where
  /-- Bytes, as they are written. -/
  binaryData : Option (Dict String) := none
  data : Option (Dict String) := none
  isFixed : Option Bool := none
  metadata : Metadata := {}
deriving Repr, Inhabited, BEq

namespace ConfigMap

def apiVersion : String := "v1"

def kind : String := "ConfigMap"

/-- The config map of an application. -/
def nameFor (app : String) : String := app ++ "-config"

/-- The file of the config map of an application. -/
def fileFor (app : String) : String := app ++ "-config.yaml"

/-- A config map with nothing but the name for an application. -/
def blank (app : String) : ConfigMap := { metadata := { name := some (nameFor app) } }

/-- Sets a text. -/
def setText (m : ConfigMap) (name value : String) : ConfigMap :=
  { m with data := some ((m.data.getD {}).insert name value) }

/-- The text set last is the one that is found. -/
theorem find?_setText (m : ConfigMap) (name other value : String) :
    ((m.setText name value).data.getD {}).find? other =
      if other = name then some value else (m.data.getD {}).find? other := by
  simp [setText, Dict.find?_insert]

end ConfigMap
end LayeredConfig
