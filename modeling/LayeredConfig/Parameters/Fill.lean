/-
Parameter files: lines of the form `name=value`. Values are filled in line by line. A value given
for a name replaces the one in the file. A generated name gets a random suffix, but only while it
has no value: when values are filled in again, the value alone takes its place. The name of an
application, its name space and its project come from the deployment if nothing else gives them.
-/
import LayeredConfig.Deployment.Basic
import LayeredConfig.Text.Lines

namespace LayeredConfig
namespace Parameters

/-- The name whose value is generated. -/
def generatedName : String := "generateName"

/-- What the deployment gives for a name. -/
def fallback? (d : Deployment) (name : String) : Option String :=
  if name = "appName" then some d.name
  else if name = "namespace" then some d.nameSpace
  else if name = "project" then some d.project
  else none

/-- Eight lower case hexadecimal digits. -/
def suffix (draw : UInt32) : String :=
  let ds := Nat.toDigits 16 draw.toNat
  String.ofList (List.replicate (8 - ds.length) '0' ++ ds)

/-- The name and the value of a line; without a `=` all of it is the name. -/
def entry (line : List Char) : String × String :=
  let (name, value) := Text.cut '=' line
  (String.ofList name, String.ofList (value.getD []))

/-- The value that replaces the one in the file, if one does. -/
def newValue? (overrides : Dict String) (d : Deployment) (draw : UInt32) (name current : String) :
    Option String :=
  match (overrides.find? name).filter (· ≠ "") with
  | some value => some (if name = generatedName ∧ current = "" then value ++ suffix draw else value)
  | none => if current = "" then fallback? d name else none

/-- A line with its new value. -/
def fillLine (overrides : Dict String) (d : Deployment) (draw : UInt32) (line : List Char) :
    List Char :=
  let (name, current) := entry line
  match newValue? overrides d draw name current with
  | some value => name.toList ++ '=' :: value.toList
  | none => line

/-- The text with a new value in each line that gets one; `draws` are the random numbers for its
lines. Every line ends with a line feed. -/
def fill (draws : Nat → UInt32) (overrides : Dict String) (d : Deployment) (text : String) :
    String :=
  String.ofList <| (Text.lines text.toList).zipIdx.flatMap fun (line, i) =>
    fillLine overrides d (draws i) line ++ ['\n']

end Parameters
end LayeredConfig
