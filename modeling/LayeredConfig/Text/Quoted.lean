/-
How a message quotes a text: between double quotes, with a backslash before what would end or
confuse the quotation, short escapes for the usual controls and `\u{...}` for every other character
that is not shown as it is.
-/
import LayeredConfig.Text.Shown

namespace LayeredConfig
namespace Text

/-- A code point in lower case hexadecimal, without leading zeros. -/
def hexDigits (n : Nat) : List Char := Nat.toDigits 16 n

/-- One character inside a quotation. -/
def escape (c : Char) : List Char :=
  if c = '\x00' then ['\\', '0']
  else if c = '\t' then ['\\', 't']
  else if c = '\r' then ['\\', 'r']
  else if c = '\n' then ['\\', 'n']
  else if c = '\\' ∨ c = '"' then ['\\', c]
  else if isShown c then [c]
  else ['\\', 'u', '\x7b'] ++ hexDigits c.toNat ++ ['\x7d']

/-- A quoted string. -/
def quoted (s : String) : String :=
  String.ofList ('"' :: s.toList.flatMap escape ++ ['"'])

end Text
end LayeredConfig
