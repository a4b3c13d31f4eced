/-
Numbers in double precision, without floating point: a number is a significand of at most 53 bits
times a power of two. Reading a decimal rounds it to the nearest such number, a tie to the even
significand. All arithmetic is on natural numbers and exact.
-/

namespace LayeredConfig
namespace Decimal

def twoPow (n : Nat) : Nat := Nat.pow 2 n

def tenPow (n : Nat) : Nat := Nat.pow 10 n

/-- A number in double precision. A finite one is `significand * 2 ^ exponent`; its significand has
53 bits unless the exponent is the least one. -/
inductive Double where
  | nan
  | infinite (negative : Bool)
  | finite (negative : Bool) (significand : Nat) (exponent : Int)
deriving DecidableEq, Repr, Inhabited

namespace Double

/-- The bits of a significand. -/
def precision : Nat := 53

def leastExponent : Int := -1074

def greatestExponent : Int := 971

/-- Equality of numbers: the two zeros are equal, and all that is no number counts as one value. -/
def sameAs : Double → Double → Bool
  | .finite _ 0 _, .finite _ 0 _ => true
  | a, b => a == b

/-- The natural number nearest to a quotient; of two the even one. -/
def nearest (num den : Nat) : Nat :=
  let q := num / den
  let twice := 2 * (num % den)
  if twice < den ∨ twice = den ∧ q % 2 = 0 then q else q + 1

/-- A quotient times two to the power `e`, as a quotient. -/
def scaled (num den : Nat) (e : Int) : Nat × Nat :=
  if 0 ≤ e then (num * twoPow e.toNat, den) else (num, den * twoPow (-e).toNat)

/-- The exponent with which a positive quotient has a significand of full precision, and no less
than the least one. -/
def exponentOf (num den : Nat) : Int :=
  let guess : Int := (num.log2 : Int) - den.log2 - precision
  let (n, d) := scaled num den (-guess)
  let e := if n / d < twoPow precision then guess else guess + 1
  max e leastExponent

/-- The number nearest to a quotient. -/
def ofQuotient (negative : Bool) (num den : Nat) : Double :=
  if num = 0 then .finite negative 0 leastExponent
  else
    let e := exponentOf num den
    let (n, d) := scaled num den (-e)
    let m := nearest n d
    let (m, e) := if m = twoPow precision then (m / 2, e + 1) else (m, e)
    if e > greatestExponent then .infinite negative else .finite negative m e

/-- The number nearest to `digits * 10 ^ exponent`. Far beyond the range of the format the exponent
alone decides, and no large power is computed. -/
def ofDecimal (negative : Bool) (digits : Nat) (exponent : Int) : Double :=
  let magnitude := exponent + (Nat.toDigits 10 digits).length
  if digits = 0 ∨ magnitude < -400 then .finite negative 0 leastExponent
  else if magnitude > 400 then .infinite negative
  else if 0 ≤ exponent then ofQuotient negative (digits * tenPow exponent.toNat) 1
  else ofQuotient negative digits (tenPow (-exponent).toNat)

def isFinite : Double → Bool
  | .finite .. => true
  | _ => false

end Double
end Decimal
end LayeredConfig
