/-
  Cutting a document into tokens.

  1. Outside brackets, indentation shows where blocks start and end.  `Scanner.openBlock` starts one in a column right of
     the innermost, and `Scanner.closeBlocks` ends those that a line leaves.
  2. A key needs no mark of its own: what stands before a colon in the same line, and no more than `keyReach` bytes
     before it, is a key.  `KeyStart` remembers where one may have started, so that the colon can put the token of
     the key there.  A key is owed where a line starts in the column of its block.
  3. `tokens?` is the tokens of a text.  None is found where a text has a character that may not start a token.
-/
import M32.Yaml.Scalar.Block
import M32.Yaml.Scalar.Plain
import M32.Yaml.Scalar.Quoted
import M32.Yaml.Token.Mark

namespace M32.Yaml

/-! ## Where a key may start -/

/-- Where a key may have started. -/
structure KeyStart where
  /-- The number of tokens before it. -/
  token : Nat
  pos : Position
  /-- Whether a key has to start here. -/
  isOwed : Bool
  deriving DecidableEq, Repr

/-- How many bytes a key may take. -/
def keyReach : Nat := 1024

/-- Whether a place is too far away for a colon there to end a key. -/
def KeyStart.isPast (k : KeyStart) (p : Position) : Bool := k.pos.line < p.line || k.pos.index + keyReach < p.index

/-! ## Scanners -/

/-- What is known between two tokens. -/
structure Scanner where
  cursor : Cursor
  tokens : Array Token := #[]
  /-- The columns of the open blocks, the innermost first. -/
  indents : List Nat := []
  /-- Where a key may have started in the innermost brackets. -/
  key? : Option KeyStart := none
  /-- The same for the brackets around these, and outside all of them. -/
  outer : List (Option KeyStart) := []
  /-- Whether a key may start here. -/
  allowsKey : Bool := true

namespace Scanner

/-- Whether brackets are open. -/
def inFlow (s : Scanner) : Bool := !s.outer.isEmpty

/-- Adds a token. -/
def push (s : Scanner) (t : Token) : Scanner := { s with tokens := s.tokens.push t }

/-- Adds a token that some characters write. -/
def pushMark (s : Scanner) (n : Nat) (t : Token) : Scanner := { s.push t with cursor := s.cursor.skip n }

/-- Adds a token and goes on after it. -/
def pushTo (s : Scanner) (t : Token) (c : Cursor) : Scanner := { s.push t with cursor := c }

/-- Says whether a key may start here. -/
def allowKey (s : Scanner) (allowed : Bool) : Scanner := { s with allowsKey := allowed }

/-- The column that a scalar inside the innermost block has to reach. -/
def least (s : Scanner) : Nat := s.indents.head?.elim 0 (· + 1)

/-! ### Keys -/

/-- Gives up a key, unless it is owed. -/
def dropKey? (s : Scanner) : Option Scanner :=
  if s.key?.any KeyStart.isOwed then none else some { s with key? := none }

/-- Remembers that a key may start here. -/
def saveKey? (s : Scanner) : Option Scanner :=
  if s.allowsKey then
    let isOwed := !s.inFlow && s.indents.head? = some s.cursor.pos.column
    s.dropKey?.map fun s => { s with key? := some ⟨s.tokens.size, s.cursor.pos, isOwed⟩ }
  else some s

/-- Gives up the keys that are too far away, none of which may be owed. -/
def dropPastKeys? (s : Scanner) : Option Scanner :=
  let isPast (k : KeyStart) := k.isPast s.cursor.pos
  if (s.key? :: s.outer).any (·.any fun k => isPast k && k.isOwed) then none
  else some { s with key? := s.key?.filter (!isPast ·), outer := s.outer.map (·.filter (!isPast ·)) }

/-! ### Blocks -/

/-- Starts a block in a column, before the token of a number, unless one is open there. -/
def openBlock (s : Scanner) (column token : Nat) (t : Token) : Scanner :=
  if s.inFlow || s.indents.head?.any (column ≤ ·) then s
  else { s with indents := column :: s.indents, tokens := s.tokens.insertIdxIfInBounds token t }

/-- Starts a block here. -/
def openBlockHere (s : Scanner) (t : Token) : Scanner := s.openBlock s.cursor.pos.column s.tokens.size t

/-- Ends the blocks whose column a line does not reach. -/
def closeBlocks (s : Scanner) (isLeft : Nat → Bool) : Scanner :=
  if s.inFlow then s
  else
    let closed := s.indents.takeWhile isLeft
    { s with indents := s.indents.drop closed.length, tokens := s.tokens ++ List.replicate closed.length Token.blockEnd }

/-- Ends all blocks. -/
def closeAll (s : Scanner) : Scanner := s.closeBlocks fun _ => true

/-! ### Blanks -/

/-- Passes blanks, comments and line breaks, and byte order marks that lines start with.  A tab is no blank where a
    key may start outside brackets. -/
def skipIdle : (fuel : Nat) → Scanner → Scanner
  | 0, s => s
  | fuel + 1, s =>
    let isIdle (ch : Char) := ch == ' ' || (ch == '\t' && (s.inFlow || !s.allowsKey))
    let c := (s.cursor.dropOrderMark.dropWhile isIdle).dropComment
    if c.rest.head?.any isBreak then
      skipIdle fuel { s with cursor := c.breakLine, allowsKey := s.allowsKey || !s.inFlow }
    else { s with cursor := c }

/-! ## Tokens -/

/-- A token that ends all blocks: the start or the end of a document, or a directive. -/
def takeBoundary? (s : Scanner) (t : Token) (c : Cursor) : Option Scanner :=
  (s.closeAll.dropKey?).map fun s => (s.allowKey false).pushTo t c

/-- An opening bracket. -/
def takeOpening? (s : Scanner) (t : Token) : Option Scanner :=
  s.saveKey?.map fun s => { s.allowKey true with key? := none, outer := s.key? :: s.outer }.pushMark 1 t

/-- A closing bracket. -/
def takeClosing? (s : Scanner) (t : Token) : Option Scanner :=
  s.dropKey?.map fun s =>
    let s := match s.outer with
      | k :: ks => { s with key? := k, outer := ks }
      | [] => s
    (s.allowKey false).pushMark 1 t

/-- A comma in brackets. -/
def takeComma? (s : Scanner) : Option Scanner := s.dropKey?.map fun s => (s.allowKey true).pushMark 1 .comma

/-- The mark of an item of a block. -/
def takeItem? (s : Scanner) : Option Scanner :=
  if !s.inFlow && !s.allowsKey then none
  else (s.openBlockHere .blockList).dropKey?.map fun s => (s.allowKey true).pushMark 1 .item

/-- The mark of a key. -/
def takeKey? (s : Scanner) : Option Scanner :=
  if !s.inFlow && !s.allowsKey then none
  else (s.openBlockHere .blockMapping).dropKey?.map fun s => (s.allowKey !s.inFlow).pushMark 1 .key

/-- The colon before a value.  A key that may have started before it did. -/
def takeValue? (s : Scanner) : Option Scanner :=
  match s.key? with
  | some k =>
    let s := { s with tokens := s.tokens.insertIdxIfInBounds k.token .key, key? := none, allowsKey := false }
    some ((s.openBlock k.pos.column k.token .blockMapping).pushMark 1 .value)
  | none =>
    if !s.inFlow && !s.allowsKey then none
    else some (((s.openBlockHere .blockMapping).allowKey !s.inFlow).pushMark 1 .value)

/-- A token that may start a key. -/
def takeWord? (s : Scanner) (read? : Cursor → Option (Token × Cursor)) : Option Scanner := do
  let s ← s.saveKey?
  let (t, c) ← read? s.cursor
  return (s.allowKey false).pushTo t c

/-- A name after its mark. -/
def takeName? (s : Scanner) (t : String → Token) : Option Scanner :=
  s.takeWord? fun c => (name? (c.skip 1)).map fun (name, c) => (t name, c)

/-- A scalar in quotes. -/
def takeQuoted? (s : Scanner) (style : Style) (quote : Char) : Option Scanner :=
  s.takeWord? fun c => (quoted? quote c).map fun (text, c) => (.scalar ⟨style, text, none⟩, c)

/-- A block of text. -/
def takeBlock? (s : Scanner) (style : Style) : Option Scanner := do
  let s ← s.dropKey?
  let (text, c) ← block? style s.indents.head? s.cursor
  return (s.allowKey true).pushTo (.scalar ⟨style, text, none⟩) c

/-- A plain scalar.  A key may start in the line after it. -/
def takePlain? (s : Scanner) : Option Scanner := do
  let s ← s.saveKey?
  let p ← plain? s.inFlow s.least s.cursor
  return (s.allowKey p.isBroken).pushTo (.scalar ⟨.plain, p.text, none⟩) p.rest

/-- Whether a plain scalar may start with a character before a text. -/
def startsPlain (inFlow : Bool) (ch : Char) (cs : List Char) : Bool :=
  if ch == '-' then !cs.head?.any isSpace
  else if ch == '?' || ch == ':' then !inFlow && !endsWord cs
  else !(isSpace ch || isBreak ch || isFlowMark ch || ['#', '&', '*', '!', '|', '>', '\'', '"', '%', '@', '\x60'].contains ch)

/-- The token that starts with a character. -/
def take? (s : Scanner) (ch : Char) (cs : List Char) : Option Scanner :=
  if s.cursor.pos.column = 0 && ch = '%' then
    (directive? s.cursor).bind fun (t, c) => s.takeBoundary? t c
  else if s.cursor.isAtMark "---" then s.takeBoundary? .documentStart (s.cursor.skip 3)
  else if s.cursor.isAtMark "..." then s.takeBoundary? .documentEnd (s.cursor.skip 3)
  else if ch = '-' && endsWord cs then s.takeItem?
  else if ch = '?' && (s.inFlow || endsWord cs) then s.takeKey?
  else if ch = ':' && (s.inFlow || endsWord cs) then s.takeValue?
  else if startsPlain s.inFlow ch cs then s.takePlain?
  else match ch with
    | '[' => s.takeOpening? .flowList
    | '{' => s.takeOpening? .flowMapping
    | ']' => s.takeClosing? .flowListEnd
    | '}' => s.takeClosing? .flowMappingEnd
    | ',' => s.takeComma?
    | '*' => s.takeName? .reference
    | '&' => s.takeName? .anchor
    | '!' => s.takeWord? (tag? s.inFlow)
    | '|' => if s.inFlow then none else s.takeBlock? .literal
    | '>' => if s.inFlow then none else s.takeBlock? .folded
    | '\'' => s.takeQuoted? .single '\''
    | '"' => s.takeQuoted? .double '"'
    | _ => none

/-- All tokens from here on. -/
def all? : (fuel : Nat) → Scanner → Option (Array Token)
  | 0, _ => none
  | fuel + 1, s => do
    let s ← (s.skipIdle (s.cursor.rest.length + 1)).dropPastKeys?
    let s := s.closeBlocks (s.cursor.pos.column < ·)
    match s.cursor.rest with
    | [] => s.closeAll.dropKey?.map (·.tokens)
    | ch :: cs => all? fuel (← s.take? ch cs)

end Scanner

/-- The tokens of a text. -/
def tokens? (cs : List Char) : Option (List Token) :=
  if cs.any isForbidden then none
  else (Scanner.all? (cs.length + 1) { cursor := ⟨cs, {}⟩ }).map Array.toList

end M32.Yaml
