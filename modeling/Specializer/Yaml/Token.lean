import Specializer.Yaml.Scalar.Basic

/-!
# Tokens

The words of a YAML document. The extent of a block, which the text shows by indentation alone, has tokens of its own.
-/

namespace Specializer.Yaml

/-- A tag as written: a handle, which a directive can give a meaning, and the octets that follow it. A tag with an empty
handle means what it says. -/
structure WrittenTag where
  handle : String
  suffix : List UInt8
  deriving DecidableEq, Repr, Inhabited

/-- A word of a document. -/
inductive Token where
  | versionDirective (major minor : Nat)
  | tagDirective (handle : String) (expansion : List UInt8)
  | documentStart
  | documentEnd
  | streamEnd
  | blockSequenceStart
  | blockMappingStart
  /-- Where a block ends, shown by indentation. -/
  | blockEnd
  | flowSequenceStart
  | flowSequenceEnd
  | flowMappingStart
  | flowMappingEnd
  /-- A dash. -/
  | blockEntry
  /-- A comma. -/
  | flowEntry
  /-- The start of a key, with or without a question mark. -/
  | key
  /-- A colon. -/
  | value
  | anchor (name : String)
  /-- The use of an anchor. -/
  | reference (name : String)
  | tag (written : WrittenTag)
  | scalar (style : ScalarStyle) (text : String)
  deriving DecidableEq, Repr, Inhabited

end Specializer.Yaml
