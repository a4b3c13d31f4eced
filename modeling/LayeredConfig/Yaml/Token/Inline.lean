/-
Scalars that are written in the line: plain, in single quotes, in double quotes. All three may run
over several lines, and then fold: a line break inside them, with the blanks around it, is a space,
and further breaks after it are kept. Blanks that are followed by neither a break nor the end are
kept too, so what to do with blanks is known only at the next character. Until then they wait in a
gap.
-/
import LayeredConfig.Yaml.Token.Basic

namespace LayeredConfig
namespace Yaml

/-! ## Gaps -/

/-- White space read but not yet put into the scalar. Lists have their last character first. -/
inductive Gap where
  | none
  | blanks (kept : List Char)
  /-- A line has ended: with the break `first`, or none if it was escaped; then came `more`. -/
  | lines (first : Option Char) (more : List Char)
deriving DecidableEq, Repr, Inhabited

namespace Gap

/-- A blank after a line break is indentation. -/
def blank (c : Char) : Gap → Gap
  | .none => .blanks [c]
  | .blanks kept => .blanks (c :: kept)
  | gap => gap

/-- Blanks before a line break are dropped. -/
def lineBreak (c : Char) : Gap → Gap
  | .lines first more => .lines first (c :: more)
  | _ => .lines (some c) []

/-- Puts the gap behind what was read of the scalar, `read`, which has its last character first. -/
def close (read : List Char) : Gap → List Char
  | .none => read
  | .blanks kept => kept ++ read
  | .lines (some '\n') [] => ' ' :: read
  | .lines (some '\n') more => more ++ read
  | .lines (some c) more => more ++ c :: read
  | .lines Option.none more => more ++ read

def isNone : Gap → Bool
  | .none => true
  | _ => false

def hasLine : Gap → Bool
  | .lines .. => true
  | _ => false

end Gap

/-- The text read, from its characters in reverse. -/
def textOf (read : List Char) : String := String.ofList read.reverse

/-! ## Single quotes -/

/-- The rest of a scalar in single quotes, in which two quotes stand for one. -/
def singleQuoted : List Char → Position → Gap → List Char → Except Error (Taken String)
  | [], _, _, _ => .error .token
  | '\'' :: '\'' :: r, p, gap, read => singleQuoted r (p.move 2) .none ('\'' :: gap.close read)
  | '\'' :: r, p, gap, read => .ok ⟨textOf (gap.close read), r, p.next⟩
  | c :: r, p, gap, read =>
    if isBreak c then singleQuoted r p.newLine (gap.lineBreak c) read
    else if isBlank c then singleQuoted r p.next (gap.blank c) read
    else if p.column = 0 ∧ atDocumentMark (c :: r) then .error .token
    else singleQuoted r p.next .none (c :: gap.close read)

/-! ## Double quotes -/

/-- What a backslash and one character stand for. -/
def simpleEscape? : Char → Option Char
  | '0' => some '\x00'
  | 'a' => some '\x07'
  | 'b' => some '\x08'
  | 't' => some '\t'
  | '\t' => some '\t'
  | 'n' => some '\n'
  | 'v' => some '\x0b'
  | 'f' => some '\x0c'
  | 'r' => some '\r'
  | 'e' => some '\x1b'
  | ' ' => some ' '
  | '"' => some '"'
  | '/' => some '/'
  | '\\' => some '\\'
  | 'N' => some '\u0085'
  | '_' => some '\u00a0'
  | 'L' => some '\u2028'
  | 'P' => some '\u2029'
  | _ => none

/-- The value of a hexadecimal digit. -/
def hexValue? (c : Char) : Option Nat :=
  if '0' ≤ c ∧ c ≤ '9' then some (c.toNat - '0'.toNat)
  else if 'a' ≤ c ∧ c ≤ 'f' then some (c.toNat - 'a'.toNat + 10)
  else if 'A' ≤ c ∧ c ≤ 'F' then some (c.toNat - 'A'.toNat + 10)
  else none

/-- The character with the code point that the hexadecimal digits spell. -/
def hexChar? (digits : List Char) : Option Char := do
  let n ← digits.foldlM (fun n c => (hexValue? c).map (16 * n + ·)) 0
  if h : n.isValidChar then some (Char.ofNatAux n h) else none

/-- The rest of a scalar in double quotes. -/
def doubleQuoted : List Char → Position → Gap → List Char → Except Error (Taken String)
  | [], _, _, _ => .error .token
  | '"' :: r, p, gap, read => .ok ⟨textOf (gap.close read), r, p.next⟩
  | '\\' :: r, p, gap, read =>
    match r with
    | 'x' :: a :: b :: r => match hexChar? [a, b] with
      | some c => doubleQuoted r (p.move 4) .none (c :: gap.close read)
      | none => .error .token
    | 'u' :: a :: b :: c :: d :: r => match hexChar? [a, b, c, d] with
      | some c => doubleQuoted r (p.move 6) .none (c :: gap.close read)
      | none => .error .token
    | 'U' :: a :: b :: c :: d :: e :: f :: g :: h :: r => match hexChar? [a, b, c, d, e, f, g, h] with
      | some c => doubleQuoted r (p.move 10) .none (c :: gap.close read)
      | none => .error .token
    | c :: r =>
      if isBreak c then doubleQuoted r p.next.newLine (.lines none []) (gap.close read)
      else match simpleEscape? c with
        | some c => doubleQuoted r (p.move 2) .none (c :: gap.close read)
        | none => .error .token
    | [] => .error .token
  | c :: r, p, gap, read =>
    if isBreak c then doubleQuoted r p.newLine (gap.lineBreak c) read
    else if isBlank c then doubleQuoted r p.next (gap.blank c) read
    else if p.column = 0 ∧ atDocumentMark (c :: r) then .error .token
    else doubleQuoted r p.next .none (c :: gap.close read)

/-! ## Plain scalars -/

/-- Inside brackets these end a plain scalar. -/
def isFlowIndicator (c : Char) : Bool := c ∈ [',', '[', ']', '{', '}']

/-- The characters that must not follow a `:` in a plain scalar inside brackets. -/
def isStrayAfterColon (c : Char) : Bool := c ∈ [',', '?', '[', ']', '{', '}']

/-- A plain scalar, and whether the last gap, which is not part of it, has a line break. Outside
brackets its further lines stand at `indent` or deeper. -/
def plainScalar (inFlow : Bool) (indent : Nat) :
    List Char → Position → Gap → List Char → Except Error (Taken (String × Bool))
  | [], p, gap, read => .ok ⟨(textOf read, gap.hasLine), [], p⟩
  | c :: r, p, gap, read =>
    if isBreak c then plainScalar inFlow indent r p.newLine (gap.lineBreak c) read
    else if isBlank c then
      if gap.hasLine ∧ p.column < indent ∧ c = '\t' then .error .tab
      else plainScalar inFlow indent r p.next (gap.blank c) read
    else if ¬gap.isNone ∧ (¬inFlow ∧ p.column < indent ∨ p.column = 0 ∧ atDocumentMark (c :: r) ∨ c = '#') then
      .ok ⟨(textOf read, gap.hasLine), c :: r, p⟩
    else if inFlow ∧ c = ':' ∧ r.head?.any isStrayAfterColon then .error .indicator
    else if c = ':' ∧ atSpace r ∨ inFlow ∧ isFlowIndicator c then
      .ok ⟨(textOf read, gap.hasLine), c :: r, p⟩
    else plainScalar inFlow indent r p.next .none (c :: gap.close read)

end Yaml
end LayeredConfig
