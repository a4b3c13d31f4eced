/-
Building mappings field by field. Fields come in the order in which they are written, and a field
that holds nothing worth writing is left out.
-/
import LayeredConfig.Dict
import LayeredConfig.Yaml.Value

namespace LayeredConfig
namespace Yaml
namespace Value

/-- Part of a mapping. -/
abbrev Fields := List (Value × Value)

def texts (l : List String) : Value := .seq (l.map .string)

def ofDict (d : Dict Value) : Fields := d.entries.map fun (k, v) => (.string k, v)

def ofTextDict (d : Dict String) : Value := .map (d.entries.map fun (k, v) => (.string k, .string v))

namespace Fields

variable {α : Type}

def always (name : String) (v : Value) : Fields := [(.string name, v)]

/-- A field that is left out unless `keep`. -/
def onlyIf (keep : Bool) (name : String) (v : Value) : Fields := if keep then always name v else []

def optional (name : String) (write : α → Value) : Option α → Fields
  | some a => always name (write a)
  | none => []

def optionalText (name : String) : Option String → Fields := optional name .string

/-- A text, left out if it is empty. -/
def text (name : String) (s : String) : Fields := onlyIf (s ≠ "") name (.string s)

/-- A list, left out if it is empty. -/
def list (name : String) (write : α → Value) (l : List α) : Fields :=
  onlyIf (!l.isEmpty) name (.seq (l.map write))

def textList (name : String) : List String → Fields := list name .string

/-- A dictionary of texts, left out if it is empty. -/
def textDict (name : String) (d : Dict String) : Fields :=
  onlyIf (!d.isEmpty) name (ofTextDict d)

end Fields
end Value
end Yaml
end LayeredConfig
