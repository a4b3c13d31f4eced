/-
The shortest decimal that reads back as a given number. The decimals that do are those in an
interval around it, which reaches half way to its neighbours and includes its ends if the
significand is even. For one, two, and up to seventeen digits the two neighbours of the number on
the grid of decimals with so many digits are tried; the first hit is the answer, the nearer one if
both hit, and the even one if neither is nearer.
-/
import LayeredConfig.Decimal.Double

namespace LayeredConfig
namespace Decimal

/-- Digits and the power of ten they are multiplied by. -/
structure Digits where
  digits : Nat
  exponent : Int
deriving DecidableEq, Repr, Inhabited

/-- The ends of an interval and the number inside it, as quotients over one denominator. -/
structure Interval where
  low : Nat
  value : Nat
  high : Nat
  den : Nat
  closed : Bool
deriving Repr

namespace Interval

/-- The decimals that read back as `m * 2 ^ e`. Below a power of two the neighbour is nearer. -/
def around (m : Nat) (e : Int) : Interval :=
  let narrow := m = twoPow (Double.precision - 1) ∧ e > Double.leastExponent
  let low := if narrow then 4 * m - 1 else 4 * m - 2
  let up := twoPow (e - 2).toNat
  ⟨low * up, 4 * m * up, (4 * m + 2) * up, twoPow (2 - e).toNat, m % 2 = 0⟩

/-- Whether `n * 10 ^ p` is in the interval. -/
def has (i : Interval) (n : Nat) (p : Int) : Bool :=
  let x := n * tenPow p.toNat * i.den
  let scale := tenPow (-p).toNat
  if i.closed then i.low * scale ≤ x && x ≤ i.high * scale
  else i.low * scale < x && x < i.high * scale

/-- The value in units of `10 ^ p`, rounded down, and twice what is left over, with the unit. -/
def units (i : Interval) (p : Int) : Nat × Nat × Nat :=
  let num := i.value * tenPow (-p).toNat
  let den := i.den * tenPow p.toNat
  (num / den, 2 * (num % den), den)

/-- The better neighbour of the value on the grid of multiples of `10 ^ p`, if one is inside. -/
def onGrid? (i : Interval) (p : Int) : Option Digits :=
  let (n, twice, unit) := i.units p
  let below := i.has n p
  let above := i.has (n + 1) p
  if below ∧ above then
    some ⟨if twice < unit ∨ twice = unit ∧ n % 2 = 0 then n else n + 1, p⟩
  else if below then some ⟨n, p⟩
  else if above then some ⟨n + 1, p⟩
  else none

/-- How many digits the value has in front of the point; not positive for a small one. -/
def magnitude (i : Interval) : Int :=
  if i.value ≥ i.den then (Nat.toDigits 10 (i.value / i.den)).length
  else 1 - (Nat.toDigits 10 (i.den / i.value)).length

/-- Tries grids of `count` digits and more, `tries` of them. -/
def search (i : Interval) (magnitude : Int) : Nat → Nat → Digits
  | 0, _ => ⟨0, 0⟩
  | tries + 1, count => match i.onGrid? (magnitude - count) with
    | some d => d
    | none => i.search magnitude tries (count + 1)

end Interval

/-- Moves zeros at the end of the digits into the exponent. -/
def Digits.trim : Nat → Digits → Digits
  | fuel + 1, d => if d.digits % 10 = 0 ∧ d.digits ≠ 0 then trim fuel ⟨d.digits / 10, d.exponent + 1⟩ else d
  | 0, d => d

/-- The shortest decimal that reads back as `m * 2 ^ e`. -/
def shortest (m : Nat) (e : Int) : Digits :=
  if m = 0 then ⟨0, 0⟩
  else
    let i := Interval.around m e
    (i.search i.magnitude 20 0).trim 20

/-! ## The written form -/

/-- How a decimal is written: the magnitudes, counted in digits in front of the point, that are
written without an exponent. -/
structure Layout where
  leastPlain : Int
  greatestPlain : Int
deriving Repr

/-- Numbers from 0.00001 up to sixteen digits in front of the point have no exponent. -/
def plainLayout : Layout := ⟨-4, 16⟩

def zeros (n : Nat) : List Char := List.replicate n '0'

/-- Digits with the point where it belongs. Outside the plain range there is one digit in front of
the point and none needs to follow. -/
def Digits.write (layout : Layout) (d : Digits) : List Char :=
  let ds := Nat.toDigits 10 d.digits
  let magnitude := d.exponent + ds.length
  if 0 ≤ d.exponent ∧ magnitude ≤ layout.greatestPlain then
    ds ++ zeros d.exponent.toNat ++ ['.', '0']
  else if 0 < magnitude ∧ magnitude ≤ layout.greatestPlain then
    ds.take magnitude.toNat ++ '.' :: ds.drop magnitude.toNat
  else if layout.leastPlain ≤ magnitude ∧ magnitude ≤ 0 then
    ['0', '.'] ++ zeros (-magnitude).toNat ++ ds
  else
    let e := (toString (magnitude - 1)).toList
    match ds with
    | [c] => c :: 'e' :: e
    | c :: rest => c :: '.' :: rest ++ 'e' :: e
    | [] => []

/-- The text of a number. -/
def Double.write : Double → String
  | .nan => ".nan"
  | .infinite negative => if negative then "-.inf" else ".inf"
  | .finite negative m e =>
    String.ofList ((if negative then ['-'] else []) ++ (shortest m e).write plainLayout)

end Decimal
end LayeredConfig
