/-
What can be wrong with a YAML text, or with a value that is to be written as one. Reading stops at
the first fault.
-/

namespace LayeredConfig
namespace Yaml

inductive Error where
  /-- A control character, which no YAML text may hold. -/
  | character
  /-- A token that is not closed, or not formed, as its kind demands. -/
  | token
  /-- A key that is not followed by its `:`, or an indicator where none may stand. -/
  | indicator
  /-- A tab where indentation counts. -/
  | tab
  /-- Tokens that do not make up a document. -/
  | grammar
  /-- A directive that is unknown, given twice or asks for another version. -/
  | directive
  /-- A tag with a handle that no directive declares. -/
  | tagHandle
  /-- More than one document. -/
  | documents
  /-- An alias without its anchor. -/
  | alias
  /-- Collections nested deeper than a reader follows. -/
  | depth
  /-- More aliases followed than a document of its size may ask for. -/
  | repetition
  /-- A node of another shape than the reader expects. -/
  | shape
  /-- A record without a field it must have. -/
  | missingField (name : String)
  /-- A record with a field given twice. -/
  | duplicateField (name : String)
  /-- A mapping with two equal keys. -/
  | duplicateKey
  /-- A value with no written form. -/
  | unwritable
deriving DecidableEq, Repr, Inhabited

end Yaml
end LayeredConfig
