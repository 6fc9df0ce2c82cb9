/-
  Documents of settings.

  1. A `Document` is a node with the numbered nodes that references mean.  A reference may mean a node around it, so
     documents are not unfolded: `Document.find?` follows one reference, and a numbered node is none itself.
  2. The readers give what a field of settings needs: a number below a limit, items, entries, or the value of a field.
     A value that is left out has no items and no entries.
-/
import M32.Yaml.Node

namespace M32.Yaml

/-- A node, and what references in it mean. -/
structure Document where
  root : Node
  /-- The numbered nodes.  The first one of a number counts. -/
  numbered : List (Nat × Node) := []
  deriving Repr

namespace Document

/-- What a node or the reference in its place says. -/
def find? (d : Document) : Node → Option Node
  | .reference number => d.numbered.lookup number
  | n => some n

/-- The scalar of a node. -/
def scalar? (d : Document) (n : Node) : Option Scalar :=
  match d.find? n with
  | some (.scalar s) => some s
  | _ => none

/-- The number below `limit` that a node means. -/
def natural? (d : Document) (limit : Nat) (n : Node) : Option Nat :=
  ((d.scalar? n).bind Scalar.natural?).filter (· < limit)

/-- The text of a scalar. -/
def text? (d : Document) (n : Node) : Option String := (d.scalar? n).map fun s => String.ofList s.text

/-- The items of a list. -/
def items? (d : Document) (n : Node) : Option (List Node) :=
  match d.find? n with
  | some (.list items) => some items
  | some (.scalar s) => if s.isEmpty then some [] else none
  | _ => none

/-- The entries of a mapping. -/
def entries? (d : Document) (n : Node) : Option (List (Node × Node)) :=
  match d.find? n with
  | some (.mapping entries) => some entries
  | some (.scalar s) => if s.isEmpty then some [] else none
  | _ => none

/-- The value of a field in the entries of a mapping, the default if it is missing.  Keys have to be scalars, and
    the field may occur once. -/
def field? {α : Type} (d : Document) (entries : List (Node × Node)) (name : String) (default : α)
    (read? : Node → Option α) : Option α :=
  match entries.mapM fun (k, v) => (d.text? k).map fun t => (t, v) with
  | none => none
  | some named => match named.filter (·.1 = name) with
    | [] => some default
    | [(_, v)] => read? v
    | _ => none

end Document

end M32.Yaml
