/-
Scalars as they are written in each form, and tags. A scalar of several lines is indented below
what it belongs to.
-/
import LayeredConfig.Yaml.Written.Pen

namespace LayeredConfig
namespace Yaml
namespace Pen

/-! ## Plain and single quoted -/

def plain (pen : Pen) (s : List Char) : Pen := pen.item s

/-- The text between single quotes; `breaks` says whether a line has just ended. -/
def singleText (indentation : Nat) (pen : Pen) (breaks : Bool) : List Char → Pen
  | [] => if breaks then pen.indent indentation else pen
  | c :: rest =>
    if c = ' ' then singleText indentation (pen.put c) breaks rest
    else if Form.isAnyBreak c then
      let pen := if !breaks && c = '\n' then pen.endLine c else pen
      singleText indentation { pen.endLine c with fresh := true } true rest
    else
      let pen := if breaks then pen.indent indentation else pen
      let pen := if c = '\'' then pen.put c else pen
      singleText indentation { pen.put c with fresh := false } false rest

def single (pen : Pen) (indentation : Nat) (s : List Char) : Pen :=
  (singleText indentation (pen.item ['\'']) false s).attach ['\'']

/-! ## Double quoted -/

/-- `width` upper case hexadecimal digits. -/
def hex (width n : Nat) : List Char :=
  let ds := (Nat.toDigits 16 n).map Char.toUpper
  List.replicate (width - ds.length) '0' ++ ds

/-- The escapes of one letter. -/
def escapeLetters : List (Char × Char) :=
  [('\x00', '0'), ('\x07', 'a'), ('\x08', 'b'), ('\t', 't'), ('\n', 'n'), ('\x0b', 'v'),
   ('\x0c', 'f'), ('\r', 'r'), ('\x1b', 'e'), ('"', '"'), ('\\', '\\'), ('\u0085', 'N'),
   ('\u00a0', '_'), ('\u2028', 'L'), ('\u2029', 'P')]

def escape (c : Char) : List Char :=
  match escapeLetters.lookup c with
  | some letter => ['\\', letter]
  | none =>
    let n := c.toNat
    if n ≤ 0xff then '\\' :: 'x' :: hex 2 n
    else if n ≤ 0xffff then '\\' :: 'u' :: hex 4 n
    else '\\' :: 'U' :: hex 8 n

/-- One character between double quotes. -/
def doubleChar (c : Char) : List Char :=
  if !Form.isPrintable c || Form.isAnyBreak c || c = '"' || c = '\\' then escape c else [c]

def double (pen : Pen) (s : List Char) : Pen :=
  pen.item ('"' :: s.flatMap doubleChar ++ ['"'])

/-! ## Literal -/

/-- What the header says: the indentation, if the text itself starts like one, and whether the last
line has no break (`-`) or more than one (`+`). -/
def literalHints (s : List Char) : List Char :=
  let indentation := if s.head?.any (fun c => c = ' ' || Form.isAnyBreak c) then ['2'] else []
  let chomping := match s.reverse with
    | [] => ['-']
    | [c] => if Form.isAnyBreak c then ['+'] else ['-']
    | c :: d :: _ =>
      if !Form.isAnyBreak c then ['-'] else if Form.isAnyBreak d then ['+'] else []
  indentation ++ chomping

/-- The lines of a literal scalar; `breaks` says whether a line has just ended. -/
def literalText (indentation : Nat) (pen : Pen) (breaks : Bool) : List Char → Pen
  | [] => pen
  | c :: rest =>
    if Form.isAnyBreak c then
      literalText indentation { pen.endLine c with fresh := true } true rest
    else
      let pen := if breaks then pen.indent indentation else pen
      literalText indentation { pen.put c with fresh := false } false rest

def literal (pen : Pen) (indentation : Nat) (s : List Char) : Pen :=
  let pen := (pen.item ['|']).attach (literalHints s)
  literalText indentation { pen.endLine '\n' with spaced := true, fresh := true } true s

/-- A scalar in the given form. -/
def scalar (pen : Pen) (indentation : Nat) (form : Form) (s : List Char) : Pen :=
  match form with
  | .plain => pen.plain s
  | .single => pen.single indentation s
  | .double => pen.double s
  | .literal => pen.literal indentation s

/-! ## Tags -/

/-- Characters that a tag holds as they are. -/
def isTagChar (c : Char) : Bool :=
  isWord c || c ∈ [';', '/', '?', ':', '@', '&', '=', '+', '$', ',', '.', '~', '*', '\'', '(', ')',
    '[', ']']

/-- The bytes of a character that a tag cannot hold, each as `%` and two digits. -/
def tagChar (c : Char) : List Char :=
  if isTagChar c then [c]
  else (String.singleton c).toUTF8.toList.flatMap fun b => '%' :: hex 2 b.toNat

/-- The text of a tag. A name that consists of the `!` alone needs brackets. -/
def tagText (name : String) : List Char :=
  if name = "!" then "!<%21>".toList else '!' :: name.toList.flatMap tagChar

def tag (pen : Pen) (name : String) : Pen := pen.item (tagText name)

end Pen
end Yaml
end LayeredConfig
