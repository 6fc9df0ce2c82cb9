/-
  Tokens of documents.

  Besides scalars and the marks that are written there are tokens that no character writes: where a block of items or
  entries starts and ends, and where a key stands.
-/
import M32.Yaml.Scalar

namespace M32.Yaml

/-- A token of a document. -/
inductive Token where
  | version (major minor : Nat)
  /-- What tags with a handle start with. -/
  | tagPrefix (handle text : String)
  | documentStart
  | documentEnd
  | blockList
  | blockMapping
  | blockEnd
  | flowList
  | flowListEnd
  | flowMapping
  | flowMappingEnd
  | comma
  | item
  | key
  | value
  /-- A named node in place of one. -/
  | reference (name : String)
  /-- The name of the node after it. -/
  | anchor (name : String)
  | tag (handle text : String)
  | scalar (s : Scalar)
  deriving DecidableEq, Repr

end M32.Yaml
