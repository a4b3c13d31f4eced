/-
The tokens that say something about a node or a document without being content: anchors and aliases,
tags, and directives.
-/
import LayeredConfig.Yaml.Token.Inline

namespace LayeredConfig
namespace Yaml

/-- Splits off the longest run of word characters. -/
def takeWord (text : List Char) (p : Position) : Taken (List Char) :=
  ⟨text.takeWhile isWord, text.dropWhile isWord, p.move (text.takeWhile isWord).length⟩

/-! ## Anchors and aliases -/

/-- The characters that may follow the name of an anchor, white space apart. -/
def endsAnchor (c : Char) : Bool := c ∈ ['?', ':', ',', ']', '}', '%', '@', '`']

/-- The name of an anchor or alias. -/
def anchorName (text : List Char) (p : Position) : Except Error (Taken String) :=
  let word := takeWord text p
  if word.result.isEmpty ∨ ¬(atSpace word.rest ∨ word.rest.head?.any endsAnchor) then .error .token
  else .ok { word with result := String.ofList word.result }

/-! ## Tags -/

/-- The punctuation a tag may be spelled with. -/
def isTagMark (c : Char) : Bool :=
  c ∈ [';', '/', '?', ':', '@', '&', '=', '+', '$', '.', '!', '~', '*', '\'', '(', ')']

/-- The punctuation that would end a tag unless it stands in angle brackets or in a directive. -/
def isVerbatimMark (c : Char) : Bool := c ∈ [',', '[', ']']

/-- A character that is being spelled as escaped bytes: how many are still to come, and its bits. -/
structure Escaped where
  left : Nat
  bits : Nat
deriving Repr

namespace Escaped

/-- What a first byte announces. -/
def start? (byte : Nat) : Option Escaped :=
  if byte < 0x80 then some ⟨0, byte⟩
  else if byte / 0x20 = 0x6 then some ⟨1, byte % 0x20⟩
  else if byte / 0x10 = 0xe then some ⟨2, byte % 0x10⟩
  else if byte / 0x8 = 0x1e then some ⟨3, byte % 0x8⟩
  else none

/-- A further byte. -/
def add? (e : Escaped) (byte : Nat) : Option Escaped :=
  if byte / 0x40 = 2 then some ⟨e.left - 1, 64 * e.bits + byte % 0x40⟩ else none

def byte? (pending : Option Escaped) (byte : Nat) : Option Escaped :=
  match pending with
  | none => start? byte
  | some e => e.add? byte

end Escaped

/-- The longest spelling of a tag at the front of the text. Bytes written as `%` and two digits are
put together to characters; `pending` is one of which bytes are missing. -/
def tagSpelling (verbatim : Bool) :
    List Char → Position → Option Escaped → List Char → Except Error (Taken (List Char))
  | '%' :: a :: b :: r, p, pending, read =>
    match hexValue? a, hexValue? b with
    | some hi, some lo => match Escaped.byte? pending (16 * hi + lo) with
      | none => .error .token
      | some ⟨0, bits⟩ => tagSpelling verbatim r (p.move 3) none (Char.ofNat bits :: read)
      | some e => tagSpelling verbatim r (p.move 3) (some e) read
    | _, _ => .error .token
  | c :: r, p, pending, read =>
    if pending.isSome ∨ c = '%' then .error .token
    else if isWord c ∨ isTagMark c ∨ verbatim ∧ isVerbatimMark c then
      tagSpelling verbatim r p.next none (c :: read)
    else .ok ⟨read.reverse, c :: r, p⟩
  | [], p, pending, read => if pending.isSome then .error .token else .ok ⟨read.reverse, [], p⟩

/-- A spelling that is not empty. -/
def tagUri (verbatim : Bool) (text : List Char) (p : Position) : Except Error (Taken String) := do
  let uri ← tagSpelling verbatim text p none []
  if uri.result.isEmpty then throw .token
  return { uri with result := String.ofList uri.result }

/-- A tag after its `!`: its handle, empty if the tag is given in full, and what follows the handle.
-/
def tagProperty (inFlow : Bool) (text : List Char) (p : Position) :
    Except Error (Taken (String × String)) := do
  let tag ← match text with
    | '<' :: r => do
      let uri ← tagUri true r p.next
      match uri.rest with
      | '>' :: r => pure ⟨("", uri.result), r, uri.pos.next⟩
      | _ => throw .token
    | text => do
      let word := takeWord text p
      match word.rest with
      | '!' :: r => do
        let uri ← tagUri false r word.pos.next
        pure ⟨(String.ofList ('!' :: word.result ++ ['!']), uri.result), uri.rest, uri.pos⟩
      | rest => do
        let uri ← tagSpelling false rest word.pos none word.result.reverse
        if uri.result.isEmpty then pure ⟨("", "!"), uri.rest, uri.pos⟩
        else pure ⟨("!", String.ofList uri.result), uri.rest, uri.pos⟩
  if atSpace tag.rest ∨ inFlow ∧ tag.rest.head? = some ',' then return tag else throw .token

/-! ## Directives -/

/-- A number of a version: at most nine digits. -/
def versionNumber (text : List Char) (p : Position) : Except Error (Taken Nat) :=
  let digits := text.takeWhile Char.isDigit
  if digits.isEmpty ∨ digits.length > 9 then .error .token
  else .ok ⟨digits.foldl (fun n c => 10 * n + (c.toNat - '0'.toNat)) 0, text.dropWhile Char.isDigit,
    p.move digits.length⟩

def versionDirective (text : List Char) (p : Position) : Except Error (Taken Directive) := do
  let (text, p) := dropBlanks text p
  let major ← versionNumber text p
  match major.rest with
  | '.' :: r =>
    let minor ← versionNumber r major.pos.next
    return { minor with result := .version major.result minor.result }
  | _ => throw .token

def tagDirective (text : List Char) (p : Position) : Except Error (Taken Directive) := do
  let (text, p) := dropBlanks text p
  match text with
  | '!' :: r =>
    let word := takeWord r p.next
    let (handle, rest, pos) ← match word.rest with
      | '!' :: r => pure ('!' :: word.result ++ ['!'], r, word.pos.next)
      | r => if word.result.isEmpty then pure (['!'], r, word.pos) else throw .token
    if ¬rest.head?.any isBlank then throw .token
    let (rest, pos) := dropBlanks rest pos
    let uri ← tagUri true rest pos
    if ¬atSpace uri.rest then throw .token
    return { uri with result := .tag (String.ofList handle) uri.result }
  | _ => throw .token

/-- A directive after its `%`, with the line it stands on. -/
def directive (text : List Char) (p : Position) : Except Error (Taken Directive) := do
  let word := takeWord text p
  if word.result.isEmpty ∨ ¬atSpace word.rest then throw .token
  let d ← match String.ofList word.result with
    | "YAML" => versionDirective word.rest word.pos
    | "TAG" => tagDirective word.rest word.pos
    | _ => throw .directive
  let (rest, pos) ← endLine d.rest d.pos
  return { d with rest, pos }

end Yaml
end LayeredConfig
