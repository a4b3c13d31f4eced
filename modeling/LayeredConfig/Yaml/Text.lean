/-
The text of a YAML stream, before it is cut into tokens: which characters it may hold, which of
them separate lines and words, and where a character stands.

Line breaks come in five spellings. Three of them (a carriage return, a line feed, both together)
and the next line control are read as a line feed; the line and paragraph separators end a line but
are kept as they are. Replacing the former once, up front, leaves every line, column and scalar as
it would be otherwise.
-/
import LayeredConfig.Yaml.Error

namespace LayeredConfig
namespace Yaml

/-- Whether a stream may hold the character at all. -/
def isAllowed (c : Char) : Bool :=
  let n := c.toNat
  n == 0x09 || n == 0x0a || n == 0x0d || (0x20 ≤ n && n ≤ 0x7e) || n == 0x85 ||
    (0xa0 ≤ n && n ≤ 0xd7ff) || (0xe000 ≤ n && n ≤ 0xfffd) || 0x10000 ≤ n

/-- Ends a line, once line breaks are unified. -/
def isBreak (c : Char) : Bool := c == '\n' || c == '\u2028' || c == '\u2029'

def isBlank (c : Char) : Bool := c == ' ' || c == '\t'

/-- Letters, digits, `-` and `_`, in ASCII: what anchors, handles and directives are named with. -/
def isWord (c : Char) : Bool := c.isAlphanum || c == '-' || c == '_'

def byteOrderMark : Char := '\ufeff'

/-- Writes every line break that has a plainer spelling as a line feed. -/
def unifyBreaks : List Char → List Char
  | '\r' :: '\n' :: r => '\n' :: unifyBreaks r
  | '\r' :: r => '\n' :: unifyBreaks r
  | '\u0085' :: r => '\n' :: unifyBreaks r
  | c :: r => c :: unifyBreaks r
  | [] => []

/-- Whether the text starts with white space or has ended. -/
def atSpace : List Char → Bool
  | [] => true
  | c :: _ => isBlank c || isBreak c

/-- Whether the text, at the start of a line, goes on with `---` or `...`. -/
def atDocumentMark : List Char → Bool
  | '-' :: '-' :: '-' :: r => atSpace r
  | '.' :: '.' :: '.' :: r => atSpace r
  | _ => false

/-- The place of a character in the stream. -/
structure Position where
  index : Nat := 0
  line : Nat := 0
  column : Nat := 0
deriving DecidableEq, Repr, Inhabited

namespace Position

/-- The place `n` characters further on the same line. -/
def move (p : Position) (n : Nat) : Position := { p with index := p.index + n, column := p.column + n }

def next (p : Position) : Position := p.move 1

/-- The start of the next line. -/
def newLine (p : Position) : Position := ⟨p.index + 1, p.line + 1, 0⟩

end Position

/-- Drops blanks. -/
def dropBlanks : List Char → Position → List Char × Position
  | c :: r, p => if isBlank c then dropBlanks r p.next else (c :: r, p)
  | [], p => ([], p)

/-- Drops the rest of the line, its break excepted. -/
def dropLine : List Char → Position → List Char × Position
  | c :: r, p => if isBreak c then (c :: r, p) else dropLine r p.next
  | [], p => ([], p)

/-- Drops the end of a line on which nothing but a comment may be left. -/
def endLine (text : List Char) (p : Position) : Except Error (List Char × Position) :=
  let (text, p) := dropBlanks text p
  let (text, p) := if text.head? == some '#' then dropLine text p else (text, p)
  match text with
  | [] => .ok ([], p)
  | c :: r => if isBreak c then .ok (r, p.newLine) else .error .token

end Yaml
end LayeredConfig
