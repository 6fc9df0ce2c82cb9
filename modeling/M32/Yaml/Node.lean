/-
  Nodes: what the parts of a document say.
-/
import M32.Yaml.Scalar

namespace M32.Yaml

/-- A scalar, a list or a mapping, or a reference to one that has a number. -/
inductive Node where
  | scalar (s : Scalar)
  | list (items : List Node)
  | mapping (entries : List (Node × Node))
  | reference (number : Nat)
  deriving Repr

/-- The node of a value that is left out. -/
def Node.empty : Node := .scalar .empty

end M32.Yaml
