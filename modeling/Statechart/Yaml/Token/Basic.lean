import Statechart.Yaml.Scalar.Basic
import Statechart.Yaml.Tag

/-!
# Tokens

What a YAML source consists of: the characters that have a meaning of their own, scalars
and names, and marks where the indentation opens or ends a block collection.
-/

namespace Statechart.Yaml

/-- A token. -/
inductive Token where
  | directive (d : Directive)
  | documentStart
  | documentEnd
  | blockSequence
  | blockMapping
  | blockEnd
  | sequenceStart
  | sequenceEnd
  | mappingStart
  | mappingEnd
  | item
  | comma
  | key
  | value
  | alias (name : String)
  | anchor (name : String)
  | tag (t : Tag)
  | scalar (style : ScalarStyle) (text : String)
  deriving DecidableEq, Repr

end Statechart.Yaml
