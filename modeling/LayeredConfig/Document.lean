/-
YAML documents in files. A file that does not exist is no error: it holds no document. A document
is written in one go, after all of it has been put into words, so a value without a written form
leaves the file as it was.
-/
import LayeredConfig.FileTree.Access
import LayeredConfig.Yaml.Error

namespace LayeredConfig

/-- Why a document could not be read or written. -/
inductive DocumentError where
  | unwritable (cause : Yaml.Error)
  | malformed (path : Path) (cause : Yaml.Error)
  | notWritten (path : Path) (cause : FileError)
  | notRead (path : Path) (cause : FileError)
deriving DecidableEq, Repr, Inhabited

namespace DocumentError

def message : DocumentError → String
  | unwritable _ => "failed to serialize YAML"
  | malformed path _ => "failed to deserialize YAML from " ++ path.quoted
  | notWritten path _ => "failed to write YAML to file " ++ path.quoted
  | notRead path _ => "failed to read YAML from file " ++ path.quoted

end DocumentError

namespace Document

/-- The text of a document, with the mark of its start in front if that is asked for. -/
def text (explicit : Bool) (written : Except Yaml.Error String) : Except DocumentError String :=
  match written with
  | .ok s => .ok (if explicit then "---\n" ++ s else s)
  | .error e => .error (.unwritable e)

/-- Reads the document in a file. -/
def load {α : Type} (read : String → Except Yaml.Error α) (path : Path) :
    Files DocumentError (Option α) :=
  Files.ask fun t => match t.read path with
    | .ok s => match read s with
      | .ok a => .ok (some a)
      | .error e => .error (.malformed path e)
    | .error .notFound => .ok none
    | .error e => .error (.notRead path e)

/-- Writes a document into a file. -/
def save (path : Path) (written : Except Yaml.Error String) : Files DocumentError Unit := do
  match text false written with
  | .ok s => (Files.write path s).explain (.notWritten path)
  | .error e => throw e

end Document
end LayeredConfig
