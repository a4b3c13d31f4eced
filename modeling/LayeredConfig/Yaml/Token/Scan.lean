/-
Cutting a YAML stream into tokens.

Two things make this more than a walk along the text. Indentation opens and closes block
collections, so a stack of open indentations is kept, and tokens for their ends are put out when a
line starts further left. And a key is recognised only at the `:` behind it: every place where a key
could have started is remembered as a candidate, one per bracket level, and when the `:` comes, the
tokens that mark the key, and if need be the start of its mapping, are put in at that place. A
candidate lapses at the end of its line or after 1024 characters.
-/
import LayeredConfig.Yaml.Token.Block
import LayeredConfig.Yaml.Token.Property

namespace LayeredConfig
namespace Yaml

/-- A place where a key may have started. -/
structure KeyCandidate where
  /-- How many tokens stand before it. -/
  before : Nat
  pos : Position
  /-- Set where nothing but a key can stand: at the indentation of a block mapping. -/
  required : Bool
deriving Repr

structure Scanner where
  rest : List Char
  pos : Position := {}
  /-- The tokens so far, the last one first, and their number. -/
  tokens : List Token := []
  count : Nat := 0
  /-- The columns of the open block collections, the innermost first. -/
  indents : List Nat := []
  /-- The candidate outside all brackets or in the innermost ones, and those further out. -/
  candidate : Option KeyCandidate := none
  outer : List (Option KeyCandidate) := []
  /-- Whether a key could start here. -/
  keyAllowed : Bool := true
  finished : Bool := false
deriving Repr

namespace Scanner

def inFlow (s : Scanner) : Bool := !s.outer.isEmpty

def emit (t : Token) (s : Scanner) : Scanner :=
  { s with tokens := t :: s.tokens, count := s.count + 1 }

/-- Puts a token in where `before` tokens stand before it. -/
def emitAt (before : Nat) (t : Token) (s : Scanner) : Scanner :=
  let later := s.count - before
  { s with tokens := s.tokens.take later ++ t :: s.tokens.drop later, count := s.count + 1 }

def skip (n : Nat) (s : Scanner) : Scanner := { s with rest := s.rest.drop n, pos := s.pos.move n }

/-! ## Indentation -/

/-- Opens a block collection at a column right of the innermost one, with its start `before` as
many tokens. -/
def openBlock (column before : Nat) (start : Token) (s : Scanner) : Scanner :=
  if s.inFlow ∨ s.indents.head?.any (column ≤ ·) then s
  else emitAt before start { s with indents := column :: s.indents }

/-- How many of the open collections stand right of a column; all of them if there is none. -/
def closedBy (column : Option Nat) (indents : List Nat) : Nat :=
  (indents.takeWhile fun i => column.all (· < i)).length

/-- Closes the block collections right of a column. -/
def closeBlocks (column : Option Nat) (s : Scanner) : Scanner :=
  if s.inFlow then s
  else
    let n := closedBy column s.indents
    { s with
      indents := s.indents.drop n
      tokens := List.replicate n .blockEnd ++ s.tokens
      count := s.count + n }

/-! ## Keys -/

def dropCandidate (s : Scanner) : Except Error Scanner :=
  if s.candidate.any (·.required) then .error .indicator else .ok { s with candidate := none }

/-- Remembers this place, if a key could start here. -/
def markCandidate (s : Scanner) : Except Error Scanner := do
  if ¬s.keyAllowed then return s
  let required := !s.inFlow && s.indents.head? == some s.pos.column
  let s ← s.dropCandidate
  return { s with candidate := some ⟨s.count, s.pos, required⟩ }

/-- Whether the colon at `p` would come too late for a candidate. -/
def KeyCandidate.lapsed (p : Position) (k : KeyCandidate) : Bool :=
  k.pos.line < p.line || k.pos.index + 1024 < p.index

/-- Drops the candidates that have lapsed. -/
def dropLapsed (s : Scanner) : Except Error Scanner :=
  let keep (k : Option KeyCandidate) := k.filter fun k => !KeyCandidate.lapsed s.pos k
  let lost (k : Option KeyCandidate) := k.any fun k => KeyCandidate.lapsed s.pos k && k.required
  if lost s.candidate ∨ s.outer.any lost then .error .indicator
  else .ok { s with candidate := keep s.candidate, outer := s.outer.map keep }

/-! ## Between tokens -/

/-- Skips white space and comments. Tabs are white space except where they could be taken for
indentation. Outside brackets a key may start on every new line. -/
def skipSpace (inFlow : Bool) : Bool → Bool → List Char → Position → Bool × List Char × Position
  | keyAllowed, _, [], p => (keyAllowed, [], p)
  | keyAllowed, inComment, c :: r, p =>
    if isBreak c then skipSpace inFlow (keyAllowed || !inFlow) false r p.newLine
    else if inComment ∨ c = '#' then skipSpace inFlow keyAllowed true r p.next
    else if c = ' ' ∨ c = '\t' ∧ (inFlow ∨ ¬keyAllowed) then skipSpace inFlow keyAllowed false r p.next
    else (keyAllowed, c :: r, p)

def toNextToken (s : Scanner) : Scanner :=
  let (keyAllowed, rest, pos) := skipSpace s.inFlow s.keyAllowed false s.rest s.pos
  { s with keyAllowed, rest, pos }

/-! ## One token -/

/-- The tokens that end whatever is open: marks between documents and directives. -/
def atDocument (s : Scanner) : Except Error Scanner := do
  let s ← (s.closeBlocks none).dropCandidate
  return { s with keyAllowed := false }

def documentMark (t : Token) (s : Scanner) : Except Error Scanner := do
  return ((← s.atDocument).emit t).skip 3

def flowStart (t : Token) (s : Scanner) : Except Error Scanner := do
  let s ← s.markCandidate
  return ({ s with outer := s.candidate :: s.outer, candidate := none, keyAllowed := true }.emit t).skip 1

def flowEnd (t : Token) (s : Scanner) : Except Error Scanner := do
  let s ← s.dropCandidate
  let s := match s.outer with
    | [] => s
    | k :: outer => { s with candidate := k, outer }
  return ({ s with keyAllowed := false }.emit t).skip 1

def flowEntry (s : Scanner) : Except Error Scanner := do
  let s ← s.dropCandidate
  return ({ s with keyAllowed := true }.emit .flowEntry).skip 1

/-- Outside brackets an indicator may open a collection, but only where a key could start. -/
def openAtIndicator (start : Token) (s : Scanner) : Except Error Scanner :=
  if s.inFlow then .ok s
  else if s.keyAllowed then .ok (s.openBlock s.pos.column s.count start)
  else .error .indicator

def blockEntry (s : Scanner) : Except Error Scanner := do
  let s ← (← s.openAtIndicator .blockSequenceStart).dropCandidate
  return ({ s with keyAllowed := true }.emit .blockEntry).skip 1

def keyMark (s : Scanner) : Except Error Scanner := do
  let s ← (← s.openAtIndicator .blockMappingStart).dropCandidate
  return ({ s with keyAllowed := !s.inFlow }.emit .key).skip 1

def valueMark (s : Scanner) : Except Error Scanner := do
  let s ← match s.candidate with
    | some k =>
      let s := s.emitAt k.before .key
      let s := s.openBlock k.pos.column k.before .blockMappingStart
      pure { s with candidate := none, keyAllowed := false }
    | none => do
      let s ← s.openAtIndicator .blockMappingStart
      pure { s with keyAllowed := !s.inFlow }
  return (s.emit .value).skip 1

/-- A token that can be the start of a key. -/
def keyStart (read : Scanner → Except Error (Taken Token)) (s : Scanner) : Except Error Scanner := do
  let s ← s.markCandidate
  let t ← read s
  return { s with keyAllowed := false, rest := t.rest, pos := t.pos }.emit t.result

def aliasToken (s : Scanner) : Except Error (Taken Token) := do
  let name ← anchorName s.rest.tail s.pos.next
  return { name with result := .alias name.result }

def anchorToken (s : Scanner) : Except Error (Taken Token) := do
  let name ← anchorName s.rest.tail s.pos.next
  return { name with result := .anchor name.result }

def tagToken (s : Scanner) : Except Error (Taken Token) := do
  let tag ← tagProperty s.inFlow s.rest.tail s.pos.next
  return { tag with result := .tag tag.result.1 tag.result.2 }

def singleQuotedToken (s : Scanner) : Except Error (Taken Token) := do
  let text ← singleQuoted s.rest.tail s.pos.next .none []
  return { text with result := .scalar .quoted text.result }

def doubleQuotedToken (s : Scanner) : Except Error (Taken Token) := do
  let text ← doubleQuoted s.rest.tail s.pos.next .none []
  return { text with result := .scalar .quoted text.result }

def plainToken (s : Scanner) : Except Error Scanner := do
  let s ← s.markCandidate
  let text ← plainScalar s.inFlow (s.indents.head?.elim 0 (· + 1)) s.rest s.pos .none []
  return { s with keyAllowed := text.result.2, rest := text.rest, pos := text.pos }.emit
    (.scalar .plain text.result.1)

def blockToken (folded : Bool) (s : Scanner) : Except Error Scanner := do
  let s ← s.dropCandidate
  let text ← blockScalar folded s.indents.head? s.rest.tail s.pos.next
  return { s with keyAllowed := true, rest := text.rest, pos := text.pos }.emit
    (.scalar (if folded then .folded else .literal) text.result)

def directiveToken (s : Scanner) : Except Error Scanner := do
  let s ← s.atDocument
  let d ← directive s.rest.tail s.pos.next
  return { s with rest := d.rest, pos := d.pos }.emit (.directive d.result)

/-- The end of the stream counts as the start of a line. -/
def endToken (s : Scanner) : Except Error Scanner := do
  let s ← ({ s with pos := s.pos.newLine }.closeBlocks none).dropCandidate
  return { s with finished := true }.emit .streamEnd

/-- Characters no plain scalar starts with, unless a further character makes up for it. -/
def isIndicator (c : Char) : Bool :=
  c ∈ ['-', '?', ':', ',', '[', ']', '{', '}', '#', '&', '*', '!', '|', '>', '\'', '"', '%', '@', '\x60']

/-- Whether a plain scalar starts here. -/
def atPlain (inFlow : Bool) (c : Char) (r : List Char) : Bool :=
  !(atSpace [c] || isIndicator c) || (c == '-' && !r.head?.any isBlank) ||
    (!inFlow && (c == '?' || c == ':') && !atSpace r)

/-- Reads the token at the front. -/
def readToken (s : Scanner) : Except Error Scanner :=
  match s.rest with
  | [] => s.endToken
  | c :: r =>
    if s.pos.column = 0 ∧ c = '%' then s.directiveToken
    else if s.pos.column = 0 ∧ atDocumentMark (c :: r) then
      s.documentMark (if c = '-' then .documentStart else .documentEnd)
    else if c = '[' then s.flowStart .flowSequenceStart
    else if c = '{' then s.flowStart .flowMappingStart
    else if c = ']' then s.flowEnd .flowSequenceEnd
    else if c = '}' then s.flowEnd .flowMappingEnd
    else if c = ',' then s.flowEntry
    else if c = '-' ∧ atSpace r then s.blockEntry
    else if c = '?' ∧ (s.inFlow ∨ atSpace r) then s.keyMark
    else if c = ':' ∧ (s.inFlow ∨ atSpace r) then s.valueMark
    else if c = '*' then s.keyStart aliasToken
    else if c = '&' then s.keyStart anchorToken
    else if c = '!' then s.keyStart tagToken
    else if c = '|' ∧ ¬s.inFlow then s.blockToken false
    else if c = '>' ∧ ¬s.inFlow then s.blockToken true
    else if c = '\'' then s.keyStart singleQuotedToken
    else if c = '"' then s.keyStart doubleQuotedToken
    else if atPlain s.inFlow c r then s.plainToken
    else .error .token

/-- Goes on to the next token and reads it. -/
def next (s : Scanner) : Except Error Scanner := do
  let s := s.toNextToken
  let s ← s.dropLapsed
  (s.closeBlocks (some s.pos.column)).readToken

/-- Reads tokens to the end. Every token but the last takes at least one character, so as many
steps as there are characters, and one for the end, are enough. -/
def run : Nat → Scanner → Except Error Scanner
  | 0, _ => .error .token
  | n + 1, s => if s.finished then .ok s else s.next >>= run n

end Scanner

/-- The start of a stream: a byte order mark takes up a column of its own. -/
def Scanner.start : List Char → Scanner
  | c :: r => if c = byteOrderMark then { rest := r, pos := Position.next {} } else { rest := c :: r }
  | [] => { rest := [] }

/-- The tokens of a YAML text. -/
def tokenize (text : String) : Except Error (List Token) := do
  let chars := text.toList
  if ¬chars.all isAllowed then throw .character
  let s ← Scanner.run (chars.length + 2) (Scanner.start (unifyBreaks chars))
  return s.tokens.reverse

end Yaml
end LayeredConfig
