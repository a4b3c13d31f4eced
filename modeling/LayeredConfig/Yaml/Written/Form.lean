/-
The form in which a text is written as a scalar. A text is asked for in the form that keeps it a
text: quoted if it would be read as something else, literal if it has several lines. What can then
be written is a matter of its characters: a plain scalar must not look like an indicator, single
quotes cannot hold a line break before a space, and a character that is not printable needs an
escape, which only double quotes have.
-/
import LayeredConfig.Yaml.Scalar

namespace LayeredConfig
namespace Yaml

/-- How a scalar is written. -/
inductive Form where
  | plain
  | single
  | double
  | literal
deriving DecidableEq, Repr, Inhabited

namespace Form

/-- Whether the character may stand in a scalar as it is. -/
def isPrintable (c : Char) : Bool :=
  let n := c.toNat
  n == 0x0a || (0x20 ≤ n && n ≤ 0x7e) || (0xa0 ≤ n && n ≤ 0xd7ff) ||
    (0xe000 ≤ n && n ≤ 0xfffd && n ≠ 0xfeff) || 0x10000 ≤ n

/-- Whether the character ends a line in one of the spellings of a line break. -/
def isAnyBreak (c : Char) : Bool := isBreak c || c == '\r' || c == '\u0085'

/-- Whether the character separates words; the end of the text counts too, as a NUL does. -/
def separates (c : Char) : Bool := isBlank c || isAnyBreak c || c == '\x00'

/-- Whether no word goes on at the start of the text. -/
def atGap : List Char → Bool
  | [] => true
  | c :: _ => separates c

/-! ## What a text looks like -/

/-- Characters that start something other than a plain scalar. -/
def openingIndicators : List Char :=
  ['#', ',', '[', ']', '\x7b', '\x7d', '&', '*', '!', '|', '>', '\'', '"', '%', '@', '\x60']

/-- Whether the text begins like something other than a plain scalar. -/
def opensIndicator : List Char → Bool
  | [] => false
  | '-' :: '-' :: '-' :: _ => true
  | '.' :: '.' :: '.' :: _ => true
  | c :: rest => c ∈ openingIndicators || (c ∈ ['?', ':', '-'] && atGap rest)

/-- Whether a comment or the end of a key begins after the character `before`. -/
def innerIndicator (before : Char) : List Char → Bool
  | [] => false
  | c :: rest =>
    (c == ':' && atGap rest) || (c == '#' && separates before) || innerIndicator c rest

/-- Whether the text cannot be plain because part of it would be read as an indicator. -/
def hasIndicator : List Char → Bool
  | [] => false
  | c :: rest => opensIndicator (c :: rest) || innerIndicator c rest

/-- Whether two characters follow each other that satisfy `p` and `q`. -/
def anyAdjacent (p q : Char → Bool) (s : List Char) : Bool :=
  (s.zip s.tail).any fun (a, b) => p a && q b

def isSpace (c : Char) : Bool := c == ' '

/-- Whether the first or the last character satisfies `p`. -/
def atAnEnd (p : Char → Bool) (s : List Char) : Bool := s.head?.any p || s.getLast?.any p

/-- Whether only double quotes can hold the text. -/
def needsEscape (s : List Char) : Bool :=
  s.any (fun c => !isPrintable c) || anyAdjacent isSpace isAnyBreak s

def canBePlain (s : List Char) : Bool :=
  !s.isEmpty && !needsEscape s && !s.any isAnyBreak && !atAnEnd isSpace s && !hasIndicator s

def canBeSingle (s : List Char) : Bool := !needsEscape s && !anyAdjacent isAnyBreak isSpace s

def canBeLiteral (s : List Char) : Bool :=
  !s.isEmpty && !needsEscape s && !s.getLast?.any isSpace

/-! ## The form of a text -/

/-- The form that keeps a text a text. -/
def wanted (s : String) : Form :=
  if '\n' ∈ s.toList then .literal
  else if (Scalar.ofPlain s).isText && !Scalar.isZeroPadded s.toList then .plain
  else .single

/-- The form in which a text is written where `form` is asked for. As a key on a line of its own a
text has one line. -/
def settle (asKey : Bool) (s : List Char) (form : Form) : Form :=
  let form := if asKey && s.any isAnyBreak then .double else form
  let form := if form = .plain && !canBePlain s then .single else form
  let form := if form = .single && !canBeSingle s then .double else form
  if form = .literal && (asKey || !canBeLiteral s) then .double else form

end Form
end Yaml
end LayeredConfig
