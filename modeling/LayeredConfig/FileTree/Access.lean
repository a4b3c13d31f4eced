/-
Reading and writing files, adding to them, and creating directories. A file is written in one go: it
holds the new text afterwards, or nothing has changed.
-/
import LayeredConfig.FileTree.Walk

namespace LayeredConfig

/-- An action on files. Also when it fails, what it has done stays done. -/
abbrev Files (ε α : Type) := EStateM ε FileTree α

namespace Files

variable {ε α : Type}

/-- The action with its errors explained. -/
def explain {ε' : Type} (f : ε → ε') (action : Files ε α) : Files ε' α := action.adaptExcept f

/-- A question to the tree, which changes nothing. -/
def ask (question : FileTree → Except ε α) : Files ε α := fun t =>
  match question t with
  | .ok a => .ok a t
  | .error e => .error e t

def isDirectory (p : Path) : Files ε Bool := fun t => .ok (t.isDirectory p) t

end Files

namespace FileTree

/-- The text of the file at a path. -/
def read (t : FileTree) (p : Path) : Except FileError String := do
  let loc ← t.find p
  match t.get? loc with
  | none => throw .notFound
  | some .directory => throw .isADirectory
  | some (.file content) =>
    if namesDirectory p then throw .notADirectory
    match content with
    | .text s => return s
    | .binary _ => throw .notText

/-- The tree with a text in the file at a path. -/
def write (t : FileTree) (p : Path) (s : String) : Except FileError FileTree := do
  let loc ← t.find p
  if namesDirectory p ∨ t.get? loc = some .directory then throw .isADirectory
  match t.refusal? loc with
  | some e => throw e
  | none => return t.set loc (.file (.text s))

/-- The tree with a text added to the file at a path, which is created if there is none. -/
def append (t : FileTree) (p : Path) (s : String) : Except FileError FileTree := do
  let loc ← t.find p
  if namesDirectory p ∨ t.get? loc = some .directory then throw .isADirectory
  match t.refusal? loc with
  | some e => throw e
  | none => match t.get? loc with
    | some (.file (.text old)) => return t.set loc (.file (.text (old ++ s)))
    | some (.file (.binary old)) => return t.set loc (.file (.binary (old ++ s.toUTF8.toList)))
    | _ => return t.set loc (.file (.text s))

/-- The tree with a new directory. -/
def createDirectory (t : FileTree) (p : Path) : Except FileError FileTree := do
  let loc ← t.find p
  match p.parts.getLast? with
  | some (.name _) =>
    if (t.get? loc).isSome then throw .alreadyExists
    match t.refusal? loc with
    | some e => throw e
    | none => return t.set loc .directory
  | _ => throw .alreadyExists

/-- Creates the first of some nested directories, the innermost first, that does not fail for want
of an outer one. The answer is the list of those that are still to be created inside it, the
outermost first. -/
def createOuter (t : FileTree) (pending : List Path) :
    List Path → Except FileError (FileTree × List Path)
  | [] => .ok (t, pending)
  | p :: outer => match t.createDirectory p with
    | .ok t => .ok (t, pending)
    | .error .notFound => createOuter t (p :: pending) outer
    | .error .alreadyExists => if t.isDirectory p then .ok (t, pending) else .error .alreadyExists
    | .error e => .error e

/-- Creates a directory unless it is there. -/
def ensureDirectory (t : FileTree) (p : Path) : Except FileError FileTree :=
  match t.createDirectory p with
  | .ok t => .ok t
  | .error e => if e = .alreadyExists ∧ t.isDirectory p then .ok t else .error e

end FileTree

namespace Path

/-- The directories around a path that its spelling names, the innermost first. -/
def outer (p : Path) : List Path :=
  (List.range (p.parts.length - 1)).map fun n => ofParts (p.parts.take (p.parts.length - 1 - n))

/-- The directories that a path needs: itself and those around it, the root excepted. -/
def directories (p : Path) : List Path :=
  (p :: p.outer).filter fun q => q.parts ≠ [] ∧ q.parts ≠ [.root]

end Path

namespace Files

def read (p : Path) : Files FileError String := ask fun t => t.read p

/-- Puts a changed tree in place of the old one. -/
def change {ε : Type} (f : FileTree → Except ε FileTree) : Files ε Unit := fun t =>
  match f t with
  | .ok t => .ok () t
  | .error e => .error e t

def write (p : Path) (s : String) : Files FileError Unit := change fun t => t.write p s

/-- Creates a directory and those around it, as far as they are missing. -/
def createDirectories (p : Path) : Files FileError Unit := do
  let inner ← fun t => match t.createOuter [] p.directories with
    | .ok (t, inner) => .ok inner t
    | .error e => .error e t
  inner.forM fun q => change fun t => t.ensureDirectory q

end Files
end LayeredConfig
