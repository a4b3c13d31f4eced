/-
What a scalar means when nothing but its text is known. A plain scalar may spell nothing, a truth
value, an integer or a number with a fraction; any other text is just text. Numbers are read
strictly: no separators between digits, and a leading zero makes a text.
-/
import LayeredConfig.Yaml.Node
import LayeredConfig.Decimal.Shortest

namespace LayeredConfig
namespace Yaml

open Decimal (Double)

inductive Scalar where
  | null
  | bool (b : Bool)
  | int (n : Int)
  | float (x : Double)
  | text (s : String)
deriving DecidableEq, Repr, Inhabited

namespace Scalar

def isNull (s : String) : Bool := s ∈ ["null", "Null", "NULL", "~"]

def bool? (s : String) : Option Bool :=
  if s ∈ ["true", "True", "TRUE"] then some true
  else if s ∈ ["false", "False", "FALSE"] then some false
  else none

/-! ## Integers -/

def isSign (c : Char) : Bool := c == '+' || c == '-'

/-- The value of a digit in a base. -/
def digit? (base : Nat) (c : Char) : Option Nat := (hexValue? c).filter (· < base)

/-- The value of one or more digits in a base. -/
def digits? (base : Nat) : List Char → Option Nat
  | [] => none
  | ds => ds.foldlM (fun n c => (digit? base c).map (base * n + ·)) 0

/-- Digits with a zero in front, which are no number. -/
def isZeroPadded (s : List Char) : Bool :=
  match s with
  | c :: r => if isSign c then padded r else padded s
  | [] => false
where
  padded : List Char → Bool
    | '0' :: d :: r => (d :: r).all Char.isDigit
    | _ => false

/-- The value of digits that may be hexadecimal, octal or binary. -/
def magnitude? (s : List Char) : Option Nat :=
  match s with
  | '0' :: 'x' :: r => digits? 16 r
  | '0' :: 'o' :: r => digits? 8 r
  | '0' :: 'b' :: r => digits? 2 r
  | s => if isZeroPadded s then none else digits? 10 s

/-- The integers that a plain scalar can stand for: those of 128 bits, with a sign or without. -/
def isInRange (n : Int) : Bool :=
  -170141183460469231731687303715884105728 ≤ n && n < 340282366920938463463374607431768211456

/-- The first integer beyond those of 64 bits with a sign. -/
def signedLimit : Int := 9223372036854775808

/-- The first integer beyond those of 64 bits without a sign. -/
def unsignedLimit : Int := 18446744073709551616

def int? (s : List Char) : Option Int :=
  let n : Option Int := match s with
    | '+' :: r => (magnitude? r).map Int.ofNat
    | '-' :: r => (magnitude? r).map fun n => -n
    | s => (magnitude? s).map Int.ofNat
  n.filter isInRange

/-- The integers of 64 bits with a sign. -/
def signed64? (s : List Char) : Option Int := (int? s).filter fun n => -signedLimit ≤ n && n < signedLimit

/-! ## Numbers with a fraction -/

/-- The exponent of a decimal, without its `e`. -/
def exponent? : List Char → Option Int
  | '-' :: r => (digits? 10 r).map fun n => -n
  | '+' :: r => (digits? 10 r).map Int.ofNat
  | r => (digits? 10 r).map Int.ofNat

/-- A decimal without sign: digits, a point and an exponent; some digits are needed. -/
def decimal? (negative : Bool) (s : List Char) : Option Double := do
  let whole := s.takeWhile Char.isDigit
  let (fraction, rest) := match s.dropWhile Char.isDigit with
    | '.' :: r => (r.takeWhile Char.isDigit, r.dropWhile Char.isDigit)
    | r => ([], r)
  let digits ← digits? 10 (whole ++ fraction)
  let exponent ← match rest with
    | [] => some 0
    | c :: r => if c = 'e' ∨ c = 'E' then exponent? r else none
  return Double.ofDecimal negative digits (exponent - fraction.length)

/-- A number with a fraction. One too large for the format is no number. -/
def float? (s : String) : Option Double :=
  if s ∈ [".inf", ".Inf", ".INF", "+.inf", "+.Inf", "+.INF"] then some (.infinite false)
  else if s ∈ ["-.inf", "-.Inf", "-.INF"] then some (.infinite true)
  else if s ∈ [".nan", ".NaN", ".NAN"] then some .nan
  else
    let x := match s.toList with
      | '+' :: r => decimal? false r
      | '-' :: r => decimal? true r
      | r => decimal? false r
    x.filter (·.isFinite)

/-! ## Plain scalars -/

/-- What a plain scalar stands for. -/
def ofPlain (s : String) : Scalar :=
  if s = "" ∨ isNull s then .null
  else match bool? s with
    | some b => .bool b
    | none => match int? s.toList with
      | some n => .int n
      | none => match (if isZeroPadded s.toList then none else float? s) with
        | some x => .float x
        | none => .text s

def isText : Scalar → Bool
  | .text _ => true
  | _ => false

/-- A plain scalar that is text stands for itself. -/
theorem ofPlain_of_isText {s : String} (h : (ofPlain s).isText) : ofPlain s = .text s := by
  simp only [ofPlain] at h ⊢
  repeat' split at h
  all_goals simp_all [isText]

/-! ## Tags -/

def boolTag : String := "tag:yaml.org,2002:bool"
def intTag : String := "tag:yaml.org,2002:int"
def floatTag : String := "tag:yaml.org,2002:float"
def nullTag : String := "tag:yaml.org,2002:null"

/-- What a tagged text stands for: a standard tag asks for a text of its kind, a tag of the
document's own changes nothing, and with any other tag a text is just text. -/
def ofTagged (tag : String) (style : ScalarStyle) (s : String) : Except Error Scalar :=
  if tag = boolTag then (bool? s).elim (.error .shape) fun b => .ok (.bool b)
  else if tag = intTag then (int? s.toList).elim (.error .shape) fun n => .ok (.int n)
  else if tag = floatTag then (float? s).elim (.error .shape) fun x => .ok (.float x)
  else if tag = nullTag then if isNull s then .ok .null else .error .shape
  else if tag.startsWith "!" ∧ style = .plain then .ok (ofPlain s)
  else .ok (.text s)

def ofNode (tag : Option String) (style : ScalarStyle) (s : String) : Except Error Scalar :=
  match tag with
  | some tag => ofTagged tag style s
  | none => .ok (if style = .plain then ofPlain s else .text s)

end Scalar
end Yaml
end LayeredConfig
