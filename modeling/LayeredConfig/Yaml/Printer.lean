/-
Values as YAML text. Collections are written in block style with two columns of indentation; a
sequence in a mapping is not indented. A key stands on the line of its value if it is short and
has one line, and is marked with `?` otherwise.

Two kinds of values have no written form: a mapping of one entry whose key is tagged or is itself
a mapping of one entry, as such an entry would be read as a tag, and a tag on a tagged value.
-/
import LayeredConfig.Yaml.Value
import LayeredConfig.Yaml.Written.Scalar

namespace LayeredConfig
namespace Yaml
namespace Value

/-- The scalar that a value is, with the form that it is asked for in. -/
def scalar? : Value → Option (String × Form)
  | .null => some ("null", .plain)
  | .bool b => some (if b then "true" else "false", .plain)
  | .int n => some (toString n, .plain)
  | .float x => some (x.write, .plain)
  | .string s => some (s, Form.wanted s)
  | _ => none

/-! ## Keys -/

/-- The longest key, in bytes, that stands on the line of its value. -/
def keyLimit : Nat := 128

/-- The bytes of a value as a key on the line of its value; none if it needs more than a line. -/
def keySize? : Value → Option Nat
  | .tagged name v => (keySize? v).map (· + (if name = "!" then 1 else name.utf8ByteSize + 1))
  | .seq [] => some 0
  | .map [] => some 0
  | v => match v.scalar? with
    | some (s, _) => if s.toList.any Form.isAnyBreak then none else some s.utf8ByteSize
    | none => none

def isSimpleKey (v : Value) : Bool := v.keySize?.any (· ≤ keyLimit)

/-! ## Writing -/

/-- Where a value is written: the indentation around it, if there is any, and whether it belongs to
a mapping or is a key on the line of its value. -/
structure Site where
  indentation : Option Nat := none
  inMapping : Bool := false
  asKey : Bool := false
deriving Repr, Inhabited

namespace Site

/-- The indentation of what is inside. -/
def inner (site : Site) : Nat := site.indentation.elim 0 (· + 2)

/-- The indentation of the further lines of a scalar. -/
def scalarIndentation (site : Site) : Nat := site.indentation.elim 2 (· + 2)

/-- The indentation of the entries of a sequence. -/
def itemIndentation (site : Site) (pen : Pen) : Nat :=
  if site.inMapping && !pen.fresh then site.indentation.getD 0 else site.inner

end Site

/-- Writes a value. -/
def write (site : Site) (pen : Pen) : Value → Pen
  | .tagged name v => write site (pen.tag name) v
  | .seq [] => (pen.item ['[']).attach [']']
  | .map [] => (pen.item ['\x7b']).attach ['\x7d']
  | .seq (x :: rest) => writeItems (site.itemIndentation pen) pen (x :: rest)
  | .map (e :: rest) => writeEntries site.inner pen (e :: rest)
  | .null => pen.plain "null".toList
  | .bool b => pen.plain (if b then "true" else "false").toList
  | .int n => pen.plain (toString n).toList
  | .float x => pen.plain x.write.toList
  | .string s =>
    pen.scalar site.scalarIndentation (Form.settle site.asKey s.toList (Form.wanted s)) s.toList
where
  writeItems (column : Nat) (pen : Pen) : List Value → Pen
    | [] => pen
    | x :: rest =>
      let pen := write ⟨some column, false, false⟩ ((pen.indent column).mark '-') x
      writeItems column pen rest
  writeEntries (column : Nat) (pen : Pen) : List (Value × Value) → Pen
    | [] => pen
    | (k, v) :: rest =>
      let pen := pen.indent column
      let pen :=
        if k.isSimpleKey then (write ⟨some column, true, true⟩ pen k).attach [':']
        else
          let pen := write ⟨some column, true, false⟩ (pen.mark '?') k
          (pen.indent column).mark ':'
      let pen := write ⟨some column, true, false⟩ pen v
      writeEntries column pen rest

/-! ## What cannot be written -/

/-- Whether an entry with this key alone in a mapping would be read as a tag. -/
def isTagLike : Value → Bool
  | .tagged .. => true
  | .map [_] => true
  | _ => false

/-- Whether the value has a written form; `underTag` says that it follows a tag. -/
def isWritable (underTag : Bool) : Value → Bool
  | .tagged _ v => !underTag && isWritable true v
  | .seq items => itemsWritable items
  | .map [(k, v)] => (underTag || !k.isTagLike) && isWritable false k && isWritable false v
  | .map entries => entriesWritable entries
  | _ => true
where
  itemsWritable : List Value → Bool
    | [] => true
    | x :: rest => isWritable false x && itemsWritable rest
  entriesWritable : List (Value × Value) → Bool
    | [] => true
    | (k, v) :: rest => isWritable false k && isWritable false v && entriesWritable rest

/-- The YAML text of a value. -/
def print (v : Value) : Except Error String :=
  if v.isWritable false then .ok ((v.write {} {}).indent 0).text else .error .unwritable

end Value
end Yaml
end LayeredConfig
