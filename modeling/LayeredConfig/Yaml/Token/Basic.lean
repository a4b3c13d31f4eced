/-
The tokens of a YAML stream. Block structure, which the text shows by indentation, is explicit
here: a block collection has a start and an end, and every entry, key and value has its mark.
-/
import LayeredConfig.Yaml.Text

namespace LayeredConfig
namespace Yaml

/-- How a scalar is written. -/
inductive ScalarStyle where
  | plain
  | quoted
  | literal
  | folded
deriving DecidableEq, Repr, Inhabited

inductive Directive where
  | version (major minor : Nat)
  | tag (handle start : String)
deriving DecidableEq, Repr, Inhabited

inductive Token where
  | directive (d : Directive)
  | documentStart
  | documentEnd
  | streamEnd
  | blockSequenceStart
  | blockMappingStart
  | blockEnd
  | flowSequenceStart
  | flowSequenceEnd
  | flowMappingStart
  | flowMappingEnd
  | blockEntry
  | flowEntry
  | key
  | value
  | alias (name : String)
  | anchor (name : String)
  | tag (handle suffix : String)
  | scalar (style : ScalarStyle) (text : String)
deriving DecidableEq, Repr, Inhabited

/-- What is read from the front of a text: a result, what follows it, and where that stands. -/
structure Taken (α : Type) where
  result : α
  rest : List Char
  pos : Position
deriving Repr

end Yaml
end LayeredConfig
