/-
Values: what a document means when no reader expects a certain shape. Mappings keep the order of
their keys. A tag of the document's own (`!name`) is part of the value.
-/
import LayeredConfig.Yaml.Scalar

namespace LayeredConfig
namespace Yaml

open Decimal (Double)

inductive Value where
  | null
  | bool (b : Bool)
  | int (n : Int)
  | float (x : Double)
  | string (s : String)
  | seq (items : List Value)
  | map (entries : List (Value × Value))
  /-- A value with a tag, which is given without its `!`. -/
  | tagged (tag : String) (value : Value)
deriving Repr, Inhabited

namespace Value

/-- Equality of values. The order of the keys of a mapping does not matter. -/
def same : Value → Value → Bool
  | .null, .null => true
  | .bool a, .bool b => a == b
  | .int a, .int b => a == b
  | .float a, .float b => a.sameAs b
  | .string a, .string b => a == b
  | .seq a, .seq b => sameItems a b
  | .map a, .map b => a.length == b.length && sameEntries a b
  | .tagged s a, .tagged t b => s == t && same a b
  | _, _ => false
where
  sameItems : List Value → List Value → Bool
    | [], [] => true
    | x :: xs, y :: ys => same x y && sameItems xs ys
    | _, _ => false
  /-- Whether every entry of the first list is in the second. -/
  sameEntries : List (Value × Value) → List (Value × Value) → Bool
    | [], _ => true
    | (k, v) :: rest, es => es.any (fun e => same k e.1 && same v e.2) && sameEntries rest es

instance : BEq Value := ⟨same⟩

/-! ## Reading -/

/-- The name of a tag of the document's own. -/
def ownTag? (tag : String) : Option String :=
  match tag.toList with
  | '!' :: '!' :: c :: r => some (String.ofList (c :: r))
  | ['!', '!'] => some "!"
  | '!' :: c :: r => some (String.ofList (c :: r))
  | ['!'] => some "!"
  | _ => none

def ofScalar : Scalar → Except Error Value
  | .null => .ok .null
  | .bool b => .ok (.bool b)
  | .int n => if -Scalar.signedLimit ≤ n ∧ n < Scalar.unsignedLimit then .ok (.int n) else .error .shape
  | .float x => .ok (.float x)
  | .text s => .ok (.string s)

/-- Whether no two keys are equal. -/
def distinctKeys : List (Value × Value) → Bool
  | [] => true
  | (k, _) :: rest => !rest.any (fun e => e.1.same k) && distinctKeys rest

/-- The value with its tag, if tags may be kept; without that they are refused. -/
def withTag (keepTags : Bool) (tag : Option String) (value : Value) : Except Error Value :=
  match tag.bind ownTag? with
  | none => .ok value
  | some name => if keepTags then .ok (.tagged name value) else .error .shape

/-- A tag that is kept beside the value no longer says what the value is. -/
def scalarTag (tag : Option String) : Option String :=
  if (tag.bind ownTag?).isSome then none else tag

/-- The value of a node. -/
def ofNode (keepTags : Bool) : Node → Except Error Value
  | .scalar tag style text => do
    withTag keepTags tag (← ofScalar (← Scalar.ofNode (scalarTag tag) style text))
  | .seq tag items => do withTag keepTags tag (.seq (← ofItems items))
  | .map tag entries => do
    let es ← ofEntries entries
    if !distinctKeys es then throw .duplicateKey
    withTag keepTags tag (.map es)
where
  ofItems : List Node → Except Error (List Value)
    | [] => .ok []
    | x :: rest => do return (← ofNode keepTags x) :: (← ofItems rest)
  ofEntries : List (Node × Node) → Except Error (List (Value × Value))
    | [] => .ok []
    | (k, v) :: rest => do return (← ofNode keepTags k, ← ofNode keepTags v) :: (← ofEntries rest)

/-- The value of a YAML text. -/
def parse (text : String) : Except Error Value := do
  match ← Yaml.parse .whole text with
  | none => return .null
  | some node => ofNode true node

end Value
end Yaml
end LayeredConfig
