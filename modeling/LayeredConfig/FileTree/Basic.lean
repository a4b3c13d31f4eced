/-
File trees: directories and files with their contents, each found under its location, which is the
list of names on the way from the root. There are no links, so a location is the only way to a
file.

A file holds text or other bytes. Only text can be read, so nothing more is kept of other contents
than their bytes. A file that can be read need not be one that can be written: a tree says at which
places writing is refused.
-/
import LayeredConfig.Path.Basic

namespace LayeredConfig

/-- What a file holds. -/
inductive Content where
  | text (s : String)
  /-- Bytes that do not spell a text. -/
  | binary (bytes : List UInt8)
deriving DecidableEq, Repr, Inhabited

inductive Entry where
  | directory
  | file (content : Content)
deriving DecidableEq, Repr, Inhabited

namespace Entry

def isDirectory : Entry → Bool
  | directory => true
  | file _ => false

end Entry

/-- The names from the root down to a file or directory. -/
abbrev Location := List Name

/-- Why a file or directory could not be used. -/
inductive FileError where
  | notFound
  | notADirectory
  | isADirectory
  | alreadyExists
  /-- A name or a path is longer than the system allows. -/
  | nameTooLong
  /-- The file does not hold text. -/
  | notText
  /-- The path holds a NUL, which no path can. -/
  | badPath
deriving DecidableEq, Repr, Inhabited

structure FileTree where
  entries : List (Location × Entry)
  /-- The directory in which relative paths start. -/
  home : Location
  /-- The places at which nothing can be written or created, each with the error that this gives. -/
  refusals : List (Location × FileError) := []
deriving DecidableEq, Repr, Inhabited

namespace FileTree

/-- What is at a location. The root is always a directory. -/
def get? (t : FileTree) (loc : Location) : Option Entry :=
  if loc = [] then some .directory else t.entries.lookup loc

/-- Why nothing can be written at a location, if that is so. -/
def refusal? (t : FileTree) (loc : Location) : Option FileError := t.refusals.lookup loc

/-- Puts an entry at a location, in place of what was there. -/
def set (t : FileTree) (loc : Location) (e : Entry) : FileTree :=
  { t with entries := t.entries.filter (fun x => x.1 ≠ loc) ++ [(loc, e)] }

theorem lookup_filter_ne (l : List (Location × Entry)) (loc other : Location) :
    (l.filter fun x => !decide (x.1 = loc)).lookup other =
      if other = loc then none else l.lookup other := by
  induction l with
  | nil => simp
  | cons x rest ih =>
    obtain ⟨k, v⟩ := x
    by_cases hk : k = loc
    · subst hk
      by_cases ho : other = k
      · simpa [ho] using ih
      · have hb : (other == k) = false := by simp [ho]
        simpa [ho, List.lookup_cons, hb] using ih
    · by_cases hok : other = k
      · subst hok
        simp [hk]
      · have hb : (other == k) = false := by simp [hok]
        simpa [List.lookup_cons, hk, hb] using ih

/-- After an entry is put at a location it is there, and everything else is as before. -/
theorem get?_set (t : FileTree) {loc : Location} (hloc : loc ≠ []) (e : Entry)
    (other : Location) : (t.set loc e).get? other = if other = loc then some e else t.get? other := by
  have h := lookup_filter_ne t.entries loc other
  simp only [get?, set, ne_eq, decide_not, List.lookup_append, h]
  by_cases ho : other = loc
  · subst ho
    simp [hloc]
  · have hb : (other == loc) = false := by simp [ho]
    simp [ho, List.lookup_cons, hb]

end FileTree
end LayeredConfig
