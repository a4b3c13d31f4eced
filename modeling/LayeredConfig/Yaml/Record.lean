/-
Reading nodes as records, lists and texts. A reader that knows what it expects takes any scalar as
a text, whatever the scalar would mean on its own. Where a list or a mapping is expected, nothing
written means an empty one.
-/
import LayeredConfig.Dict
import LayeredConfig.Yaml.Value

namespace LayeredConfig
namespace Yaml
namespace Node

/-! ## Single nodes -/

def text : Node → Except Error String
  | .scalar _ _ s => .ok s
  | _ => .error .shape

/-- Whether nothing is written where the node stands. -/
def isEmpty : Node → Bool
  | .scalar _ .plain "" => true
  | _ => false

/-- The items of a list. -/
def items : Node → Except Error (List Node)
  | .seq _ xs => .ok xs
  | n => if n.isEmpty then .ok [] else .error .shape

/-- The entries of a mapping. -/
def entries : Node → Except Error (List (Node × Node))
  | .map _ es => .ok es
  | n => if n.isEmpty then .ok [] else .error .shape

/-- Whether the node stands for no value. A tag that says so must be right. -/
def isNothing : Node → Except Error Bool
  | .scalar tag .plain s => match tag with
    | none => .ok (s = "" || Scalar.isNull s)
    | some tag =>
      if tag ≠ Scalar.nullTag then .ok false
      else if Scalar.isNull s then .ok true else .error .shape
  | _ => .ok false

/-- A value that may be left out. -/
def optional {α : Type} (read : Node → Except Error α) (n : Node) : Except Error (Option α) := do
  if ← n.isNothing then return none else return some (← read n)

def list {α : Type} (read : Node → Except Error α) (n : Node) : Except Error (List α) := do
  (← n.items).mapM read

def texts : Node → Except Error (List String) := list text

/-- A mapping with keys and values that are texts; of equal keys the last one counts. -/
def textDict (n : Node) : Except Error (Dict String) := do
  return Dict.ofList (← (← n.entries).mapM fun (k, v) => return (← k.text, ← v.text))

/-- Whether a scalar may be read as something other than a text: it is plain, or literal with the
tag that says so. -/
def isTyped (tag : String) : Node → Bool
  | .scalar _ .plain _ => true
  | .scalar t .literal _ => t = some tag
  | _ => false

def flag (n : Node) : Except Error Bool := do
  let b := Scalar.bool? (← n.text)
  match b with
  | some b => if n.isTyped Scalar.boolTag then return b else throw .shape
  | none => throw .shape

/-- An integer of 64 bits with a sign. -/
def integer (n : Node) : Except Error Int := do
  let i := Scalar.signed64? (← n.text).toList
  match i with
  | some i => if n.isTyped Scalar.intTag then return i else throw .shape
  | none => throw .shape

/-- The entries of a mapping with texts as keys. -/
def fields (n : Node) : Except Error (List (String × Node)) := do
  (← n.entries).mapM fun (k, v) => return (← k.text, v)

end Node

/-! ## Records -/

/-- A mapping, split into the fields that a reader knows and the other entries. -/
structure Record where
  known : List (String × Node)
  others : List (String × Node)
deriving Repr, Inhabited

namespace Record

/-- The first name that stands twice in a list. -/
def repeated? : List String → Option String
  | [] => none
  | name :: rest => if name ∈ rest then some name else repeated? rest

/-- Splits fields by the names that are known. A known field is given once at most. -/
def ofFields (names : List String) (fields : List (String × Node)) : Except Error Record :=
  let known := fields.filter (·.1 ∈ names)
  match repeated? (known.map (·.1)) with
  | some name => .error (.duplicateField name)
  | none => .ok ⟨known, fields.filter (·.1 ∉ names)⟩

def ofNode (names : List String) (n : Node) : Except Error Record := do
  ofFields names (← n.fields)

/-- Splits a mapping by the names that are known, which may be given several times. -/
def ofRepeating (names : List String) (n : Node) : Except Error Record := do
  let fields ← n.fields
  return ⟨fields.filter (·.1 ∈ names), fields.filter (·.1 ∉ names)⟩

variable {α : Type}

/-- A field that must be there. -/
def required (r : Record) (name : String) (read : Node → Except Error α) : Except Error α :=
  match r.known.lookup name with
  | some n => read n
  | none => .error (.missingField name)

/-- A field with a default. -/
def getD (r : Record) (name : String) (default : α) (read : Node → Except Error α) :
    Except Error α :=
  match r.known.lookup name with
  | some n => read n
  | none => .ok default

/-- A field that may be left out or hold nothing. -/
def get? (r : Record) (name : String) (read : Node → Except Error α) : Except Error (Option α) :=
  r.getD name none (Node.optional read)

/-- A field that may be given several times, and then counts as it is given last. -/
def last? (r : Record) (name : String) (read : Node → Except Error α) : Except Error (Option α) := do
  let given ← (r.known.filter (·.1 = name)).mapM fun (_, n) => n.optional read
  return given.getLast?.join

/-- The entries that no reader knows, as values; tags have no place in them. -/
def rest (r : Record) : Except Error (Dict Value) := do
  return Dict.ofList (← r.others.mapM fun (k, n) => return (k, ← Value.ofNode false n))

end Record
end Yaml
end LayeredConfig
