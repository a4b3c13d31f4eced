/-
Bytes written in base 64: groups of four digits, the last one filled up with `=`. Only the one
spelling that writing produces is accepted, so the digits can be kept in place of the bytes.
-/

namespace LayeredConfig
namespace Base64

/-- The value of a digit. -/
def digit? (c : Char) : Option Nat :=
  if 'A' ≤ c ∧ c ≤ 'Z' then some (c.toNat - 'A'.toNat)
  else if 'a' ≤ c ∧ c ≤ 'z' then some (c.toNat - 'a'.toNat + 26)
  else if '0' ≤ c ∧ c ≤ '9' then some (c.toNat - '0'.toNat + 52)
  else if c = '+' then some 62
  else if c = '/' then some 63
  else none

/-- Whether the last digit in front of the filling has no bits that belong to no byte. -/
def endsByte (c : Char) (bits : Nat) : Bool := (digit? c).any (· % (1 <<< bits) = 0)

/-- Whether the text is how some bytes are written. -/
def isWritten : List Char → Bool
  | [] => true
  | [a, b, '=', '='] => (digit? a).isSome && endsByte b 4
  | [a, b, c, '='] => (digit? a).isSome && (digit? b).isSome && endsByte c 2
  | a :: b :: c :: d :: rest => [a, b, c, d].all (fun x => (digit? x).isSome) && isWritten rest
  | _ => false

end Base64
end LayeredConfig
