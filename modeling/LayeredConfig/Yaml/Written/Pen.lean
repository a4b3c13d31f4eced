/-
The writing end of a YAML text. What has to be put in front of the next item depends on what
stands before it on the line, so the pen remembers that: its column, whether a space is still
needed, and whether the line holds only indentation and the marks of collections, after which
an inner collection may start on the same line.
-/
import LayeredConfig.Yaml.Written.Form

namespace LayeredConfig
namespace Yaml

structure Pen where
  /-- What has been written, the last character first. -/
  written : List Char := []
  column : Nat := 0
  /-- Nothing needs to be put before the next item. -/
  spaced : Bool := true
  /-- The line holds only indentation and marks of collections. -/
  fresh : Bool := true
deriving Repr, Inhabited

namespace Pen

/-- Writes a character on the line. -/
def put (pen : Pen) (c : Char) : Pen :=
  { pen with written := c :: pen.written, column := pen.column + 1 }

def putAll (pen : Pen) (s : List Char) : Pen := s.foldl put pen

/-- Writes a line break. -/
def endLine (pen : Pen) (c : Char) : Pen := { pen with written := c :: pen.written, column := 0 }

/-- Writes spaces up to a column. -/
def pad (pen : Pen) (column : Nat) : Pen := pen.putAll (List.replicate (column - pen.column) ' ')

/-- Goes to an indentation: on this line, if nothing but marks stands on it, else on a new one. -/
def indent (pen : Pen) (column : Nat) : Pen :=
  let stays := pen.fresh && (pen.column < column || (pen.column == column && pen.spaced))
  let pen := if stays then pen else pen.endLine '\n'
  { pen.pad column with spaced := true, fresh := true }

/-- Puts a space where one is needed. -/
def space (pen : Pen) : Pen := if pen.spaced then pen else pen.put ' '

/-- Writes something that belongs to the value, after a space. -/
def item (pen : Pen) (s : List Char) : Pen :=
  { pen.space.putAll s with spaced := false, fresh := false }

/-- Writes something that goes on right where the line ends. -/
def attach (pen : Pen) (s : List Char) : Pen :=
  { pen.putAll s with spaced := false, fresh := false }

/-- Writes the mark of an entry of a collection; another collection may follow on the line. -/
def mark (pen : Pen) (c : Char) : Pen := { pen.space.put c with spaced := false }

/-- The text written. -/
def text (pen : Pen) : String := String.ofList pen.written.reverse

end Pen
end Yaml
end LayeredConfig
