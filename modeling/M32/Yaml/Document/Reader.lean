/-
  Reading documents from tokens.

  1. `Read` takes a value off the front of a token list, and knows what tags with a handle start with and which number
     a name has.
  2. A name gets the number of names before it.  One that is given anew gets the number of all names, which the next
     new name gets as well, and a reference means the last node of its number, even one after the reference.
  3. A node is a scalar, a block of items or entries, or one in brackets, after its name and tag.  Nodes in brackets
     hold no blocks.
  4. `Document.ofText?` reads a document.  A second document is refused.

  The readers spend fuel.  Each use of it takes a token away or is followed by one that does, so a small multiple of the
  number of tokens is enough.
-/
import M32.Yaml.Document
import M32.Yaml.Token.Scanner

namespace M32.Yaml

/-! ## Taking tokens -/

/-- What is known between two nodes. -/
structure Reading where
  tokens : List Token
  /-- What tags with a handle start with. -/
  handles : List (String × String) := []
  /-- The numbers of the names, the latest first. -/
  numbers : List (String × Nat) := []
  /-- The nodes with a number, the latest first. -/
  numbered : List (Nat × Node) := []

/-- Takes a value off the front of the tokens. -/
abbrev Read (α : Type) := StateT Reading Option α

namespace Read

/-- The next token. -/
def peek? : Read (Option Token) := return (← get).tokens.head?

/-- Drops a token. -/
def skip : Read Unit := modify fun r => { r with tokens := r.tokens.tail }

/-- Whether a token comes next. -/
def sees (t : Token) : Read Bool := return (← peek?) = some t

/-- Whether one of some tokens comes next. -/
def seesAny (ts : List Token) : Read Bool := return (← peek?).any ts.contains

/-- Takes a token, which has to come next. -/
def require (t : Token) : Read Unit := do if ← sees t then skip else failure

/-- A node, or an empty one where one of some tokens comes next. -/
def nodeBefore (stops : List Token) (node : Read Node) : Read Node := do
  if ← seesAny stops then return .empty else node

/-! ## Names and tags -/

/-- The tag of a handle and a text. -/
def resolve (handle text : String) : Read String := do
  if handle.isEmpty then return text
  match (← get).handles.lookup handle with
  | some start => return start ++ text
  | none => failure

/-- A name, if one comes next. -/
def anchor? : Read (Option String) := do
  match ← peek? with
  | some (.anchor name) =>
    skip
    return some name
  | _ => return none

/-- A tag, if one comes next. -/
def tag? : Read (Option String) := do
  match ← peek? with
  | some (.tag handle text) =>
    skip
    return some (← resolve handle text)
  | _ => return none

/-- The name and the tag of a node, in either order. -/
def properties : Read (Option String × Option String) := do
  match ← anchor? with
  | some name => return (some name, ← tag?)
  | none =>
    let tag ← tag?
    return (← anchor?, tag)

/-! ## References -/

/-- The node that stands for a name. -/
def reference (name : String) : Read Node := do
  match (← get).numbers.lookup name with
  | some number => return .reference number
  | none => failure

/-- Gives a name its number. -/
def number (name : String) : Read Nat := do
  let numbers := (← get).numbers
  modify fun r => { r with numbers := (name, numbers.length) :: numbers.filter (·.1 ≠ name) }
  return numbers.length

/-- Gives a node the number of its name.  It is earlier than the nodes inside it. -/
def numbered (name? : Option String) (node : Read Node) : Read Node := do
  let some name := name? | node
  let k ← number name
  let before := (← get).numbered
  modify fun r => { r with numbered := [] }
  let n ← node
  modify fun r => { r with numbered := r.numbered ++ (k, n) :: before }
  return n

/-! ## Nodes -/

mutual

/-- A node.  `inBlock` says whether it may be a block, and `flush` whether it may be a list whose items stand in the
    column of the key before it. -/
def node : (fuel : Nat) → (inBlock flush : Bool) → Read Node
  | 0, _, _ => failure
  | fuel + 1, inBlock, flush => do
    if let some (.reference name) ← peek? then
      skip
      return ← reference name
    let (name?, tag?) ← properties
    numbered name? (content fuel inBlock flush (name?.isSome || tag?.isSome) tag?)

/-- What follows the name and the tag of a node.  After either, it may be left out. -/
def content : (fuel : Nat) → (inBlock flush mayBeEmpty : Bool) → Option String → Read Node
  | 0, _, _, _, _ => failure
  | fuel + 1, inBlock, flush, mayBeEmpty, tag? => do
    match ← peek? with
    | some (.scalar s) =>
      skip
      return .scalar { s with tag := tag? }
    | some .flowList =>
      skip
      return .list (← flowItems fuel true)
    | some .flowMapping =>
      skip
      return .mapping (← flowEntries fuel true)
    | some .blockList =>
      if !inBlock then failure
      skip
      return .list (← items fuel)
    | some .blockMapping =>
      if !inBlock then failure
      skip
      return .mapping (← entries fuel)
    | t =>
      if flush && t = some .item then return .list (← flushItems fuel)
      else if mayBeEmpty then return .scalar { Scalar.empty with tag := tag? }
      else failure

/-- The items of a block, and its end. -/
def items : (fuel : Nat) → Read (List Node)
  | 0 => failure
  | fuel + 1 => do
    match ← peek? with
    | some .item =>
      skip
      let n ← nodeBefore [.item, .blockEnd] (node fuel true false)
      return n :: (← items fuel)
    | some .blockEnd =>
      skip
      return []
    | _ => failure

/-- Items in the column of the key before them. -/
def flushItems : (fuel : Nat) → Read (List Node)
  | 0 => failure
  | fuel + 1 => do
    if !(← sees .item) then return []
    skip
    let n ← nodeBefore [.item, .key, .value, .blockEnd] (node fuel true false)
    return n :: (← flushItems fuel)

/-- The entries of a block, and its end. -/
def entries : (fuel : Nat) → Read (List (Node × Node))
  | 0 => failure
  | fuel + 1 => do
    match ← peek? with
    | some .key =>
      skip
      let k ← nodeBefore [.key, .value, .blockEnd] (node fuel true true)
      if ← sees .value then
        skip
        let v ← nodeBefore [.key, .value, .blockEnd] (node fuel true true)
        return (k, v) :: (← entries fuel)
      else return (k, .empty) :: (← entries fuel)
    | some .blockEnd =>
      skip
      return []
    | _ => failure

/-- The items of a list in brackets, and its end.  A comma stands before all but the first. -/
def flowItems : (fuel : Nat) → (isFirst : Bool) → Read (List Node)
  | 0, _ => failure
  | fuel + 1, isFirst => do
    if !isFirst && !(← sees .flowListEnd) then require .comma
    match ← peek? with
    | some .flowListEnd =>
      skip
      return []
    | some .key =>
      skip
      let e ← flowPair fuel
      return .mapping [e] :: (← flowItems fuel false)
    | _ =>
      let n ← node fuel false false
      return n :: (← flowItems fuel false)

/-- An entry without braces in a list.  A key that is left out takes the token after it along. -/
def flowPair : (fuel : Nat) → Read (Node × Node)
  | 0 => failure
  | fuel + 1 => do
    if ← seesAny [.value, .comma, .flowListEnd] then
      skip
      return (.empty, ← flowValue fuel .flowListEnd)
    else
      let k ← node fuel false false
      return (k, ← flowValue fuel .flowListEnd)

/-- The value of an entry in brackets, up to a comma or the end. -/
def flowValue : (fuel : Nat) → (close : Token) → Read Node
  | 0, _ => failure
  | fuel + 1, close => do
    if ← sees .value then
      skip
      nodeBefore [.comma, close] (node fuel false false)
    else return .empty

/-- The entries of a mapping in braces, and its end.  A comma stands before all but the first. -/
def flowEntries : (fuel : Nat) → (isFirst : Bool) → Read (List (Node × Node))
  | 0, _ => failure
  | fuel + 1, isFirst => do
    if !isFirst && !(← sees .flowMappingEnd) then require .comma
    match ← peek? with
    | some .flowMappingEnd =>
      skip
      return []
    | some .key =>
      skip
      let k ← nodeBefore [.value, .comma, .flowMappingEnd] (node fuel false false)
      let v ← flowValue fuel .flowMappingEnd
      return (k, v) :: (← flowEntries fuel false)
    | _ =>
      let k ← node fuel false false
      return (k, .empty) :: (← flowEntries fuel false)

end

/-! ## Documents -/

/-- The handles that every document knows. -/
def commonHandles : List (String × String) := [("!", "!"), ("!!", "tag:yaml.org,2002:")]

/-- The directives of a document.  The version is given once, and so is each handle. -/
def directives : (fuel : Nat) → (hasVersion : Bool) → Read Unit
  | 0, _ => failure
  | fuel + 1, hasVersion => do
    match ← peek? with
    | some (.version major minor) =>
      if hasVersion || major ≠ 1 || !(minor = 1 || minor = 2) then failure
      skip
      directives fuel true
    | some (.tagPrefix handle text) =>
      if ((← get).handles.lookup handle).isSome then failure
      skip
      modify fun r => { r with handles := r.handles ++ [(handle, text)] }
      directives fuel hasVersion
    | _ => modify fun r => { r with handles := r.handles ++ commonHandles }

/-- Whether a token stands before a document. -/
def isOpening : Token → Bool
  | .version .. | .tagPrefix .. | .documentStart => true
  | _ => false

/-- Whether a token stands before or after a document. -/
def isOutside (t : Token) : Bool := isOpening t || t = .documentEnd

/-- A document.  One without tokens says nothing. -/
def document (fuel : Nat) : Read Node := do
  match ← peek? with
  | none => return .empty
  | some t =>
    if isOpening t then
      directives fuel false
      require .documentStart
      match ← peek? with
      | none => return .empty
      | some t => if isOutside t then return .empty else node fuel true false
    else
      modify fun r => { r with handles := commonHandles }
      node fuel true false

end Read

/-- The only document of a text. -/
def Document.ofText? (cs : List Char) : Option Document := do
  let tokens ← tokens? cs
  let (root, r) ← Read.document (4 * tokens.length + 16) { tokens }
  if r.tokens.all (· = .documentEnd) then some { root, numbered := r.numbered } else none

end M32.Yaml
