/-
File paths as the operating system takes them: bytes between slashes. Most names are text, but a
name may hold bytes that belong to no character, so a path is a list of units, each a character or
such a stray byte. A path keeps its spelling (repeated slashes, `.` parts, a slash at the end):
messages and answers show it as it was given. What a spelling means is its list of parts.
-/
import LayeredConfig.Text.Quoted

namespace LayeredConfig

/-- A piece of a file name: a character, or a byte that is part of none. -/
inductive NameUnit where
  | char (c : Char)
  | stray (byte : UInt8)
deriving DecidableEq, Repr, Inhabited

namespace NameUnit

/-- How many bytes the unit takes on disk. -/
def size : NameUnit → Nat
  | .char c => c.utf8Size
  | .stray _ => 1

/-- The character of a unit that is one. -/
def char? : NameUnit → Option Char
  | .char c => some c
  | .stray _ => none

/-- The unit inside a quotation. A stray byte is shown as two upper case hexadecimal digits. -/
def escape : NameUnit → List Char
  | .char c => Text.escape c
  | .stray b => ['\\', 'x', digit (b.toNat / 16), digit (b.toNat % 16)]
where
  digit (n : Nat) : Char := (Nat.digitChar n).toUpper

end NameUnit

/-- The name of a directory entry. -/
abbrev Name := List NameUnit

/-- The name that spells a text. -/
def Name.ofString (s : String) : Name := s.toList.map NameUnit.char

/-- The text of a name, if it is text. -/
def Name.text? (n : Name) : Option String :=
  (n.mapM NameUnit.char?).map String.ofList

/-- How many bytes the name takes on disk. -/
def Name.size (n : Name) : Nat := n.foldr (fun u size => u.size + size) 0

/-- A path as it is spelled. -/
structure Path where
  units : List NameUnit
deriving DecidableEq, Repr, Inhabited

namespace Path

def slash : NameUnit := .char '/'

def dot : Name := [.char '.']

def dotDot : Name := [.char '.', .char '.']

def ofString (s : String) : Path := ⟨Name.ofString s⟩

def text? (p : Path) : Option String := Name.text? p.units

def isAbsolute (p : Path) : Bool := p.units.head? == some slash

/-- `p / q`: an absolute `q` stands alone, and a slash is put between the two where there is none. -/
def join (p q : Path) : Path :=
  if q.isAbsolute then q
  else if p.units.isEmpty || p.units.getLast? == some slash then ⟨p.units ++ q.units⟩
  else ⟨p.units ++ slash :: q.units⟩

instance : Div Path := ⟨join⟩

/-- A path inside double quotes. -/
def quoted (p : Path) : String :=
  String.ofList ('"' :: p.units.flatMap NameUnit.escape ++ ['"'])

/-- One part of a path. -/
inductive Part where
  | root
  | here
  | up
  | name (n : Name)
deriving DecidableEq, Repr, Inhabited

/-- The pieces between the slashes, empty ones included. -/
def pieces (us : List NameUnit) : List Name :=
  us.foldr (fun u acc => match acc with
    | [] => [[u]]
    | n :: rest => if u = slash then [] :: n :: rest else (u :: n) :: rest) [[]]

/-- What a piece means on its own; an empty piece means nothing. -/
def Part.ofPiece : Name → Option Part
  | [] => none
  | n => some (if n = dot then .here else if n = dotDot then .up else .name n)

/-- The parts of a path. A `.` counts only at the start of a relative path. -/
def parts (p : Path) : List Part :=
  match pieces p.units with
  | [] => []
  | first :: rest =>
    (if p.isAbsolute then [.root] else (Part.ofPiece first).toList) ++
      (rest.filterMap Part.ofPiece).filter (· ≠ .here)

/-- The spelling of one part. -/
def Part.spelling : Part → Name
  | .root => [slash]
  | .here => dot
  | .up => dotDot
  | .name n => n

/-- The plainest spelling of a list of parts: a slash between any two, and none after the root. -/
def ofParts : List Part → Path
  | [] => ⟨[]⟩
  | .root :: ps => ⟨slash :: between ps⟩
  | ps => ⟨between ps⟩
where
  between (ps : List Part) : Name := List.intercalate [slash] (ps.map Part.spelling)

/-- The path without its last part. The root and the empty path have no parent. -/
def parent? (p : Path) : Option Path :=
  match p.parts.getLast? with
  | none => none
  | some .root => none
  | some _ => some (ofParts p.parts.dropLast)

end Path
end LayeredConfig
