/-
  Scalars in lines of their own.

  The head of such a block says whether its lines are kept as they are or folded, by how much they are indented, and
  whether the breaks at its end stay.  Where the head does not say it, the first line that is not empty sets the
  indentation.
-/
import M32.Yaml.Scalar
import M32.Yaml.Cursor

namespace M32.Yaml

/-! ## Heads -/

/-- What becomes of the breaks at the end of a block: one stays, none or all. -/
inductive Chomping where
  | clip | strip | keep
  deriving DecidableEq, Repr

/-- What the head of a block says. -/
structure BlockHead where
  chomping : Chomping := .clip
  indent? : Option Nat := none
  deriving DecidableEq, Repr

/-- The mark of chomping that a text starts with. -/
def chomping? : List Char → Option Chomping
  | '+' :: _ => some .keep
  | '-' :: _ => some .strip
  | _ => none

/-- The digit that a text starts with. -/
def leadingDigit? : List Char → Option Nat
  | c :: _ => digitValue? 10 c
  | [] => none

/-- The marks of a head, in either order, and their number.  The digit zero is refused. -/
def blockHead? (cs : List Char) : Option (BlockHead × Nat) :=
  let found : BlockHead × Nat := match chomping? cs, leadingDigit? cs with
    | some chomping, _ => match leadingDigit? cs.tail with
      | some d => (⟨chomping, some d⟩, 2)
      | none => (⟨chomping, none⟩, 1)
    | none, some d => match chomping? cs.tail with
      | some chomping => (⟨chomping, some d⟩, 2)
      | none => (⟨.clip, some d⟩, 1)
    | none, none => ({}, 0)
  if found.1.indent? = some 0 then none else some found

/-! ## Lines -/

/-- The breaks of empty lines, the widest indentation among them and the line after them, and where that one starts. -/
structure EmptyLines where
  breaks : List Char
  widest : Nat
  rest : Cursor

/-- Passes empty lines and the blanks before the next line: as many as `indent?` says, or all.  A tab among them
    is refused. -/
def emptyLines? (indent? : Option Nat) (widest : Nat) (p : Position) : List Char → Option EmptyLines
  | '\r' :: '\n' :: cs => (emptyLines? indent? (max widest p.column) (p.breakLine 2) cs).map fun e =>
      { e with breaks := '\n' :: e.breaks }
  | c :: cs =>
    let isInside := indent?.all (p.column < ·)
    if c = ' ' && isInside then emptyLines? indent? widest (p.skip c) cs
    else if c = '\t' && isInside then none
    else if isBreak c then (emptyLines? indent? (max widest p.column) (p.breakLine c.utf8Size) cs).map fun e =>
        { e with breaks := breakText c :: e.breaks }
    else some ⟨[], max widest p.column, ⟨c :: cs, p⟩⟩
  | [] => some ⟨[], max widest p.column, ⟨[], p⟩⟩

/-- What stands between two lines of a block: the break after the first and those of empty lines.  Folded, a break
    between two lines that start with no blank is a blank, or nothing if empty lines follow it. -/
def betweenLines (isFolded : Bool) (break? : Option Char) (breaks : List Char) : List Char :=
  if isFolded && break? = some '\n' then (if breaks.isEmpty then [' '] else breaks) else break?.toList ++ breaks

/-- The lines of a block that start in column `indent`, after the break of the line before them and the breaks of
    empty lines. -/
def blockLines? (style : Style) (chomping : Chomping) (indent : Nat) :
    (fuel : Nat) → (break? : Option Char) → (afterBlank : Bool) → EmptyLines → Option (List Char × Cursor)
  | 0, _, _, _ => none
  | fuel + 1, break?, afterBlank, e =>
    let c := e.rest
    if c.pos.column = indent && !c.rest.isEmpty then do
      let isBlank := c.rest.head?.any isSpace
      let before := betweenLines (style = .folded && !afterBlank && !isBlank) break? e.breaks
      let line := c.takeWhile (!isBreak ·)
      let c := c.skip line.length
      let next := c.breakLine
      let e ← emptyLines? (some indent) 0 next.pos next.rest
      let (text, c) ← blockLines? style chomping indent fuel (c.rest.head?.map breakText) isBlank e
      return (before ++ line ++ text, c)
    else
      let tail := match chomping with
        | .clip => break?.toList
        | .strip => []
        | .keep => break?.toList ++ e.breaks
      some (tail, c)

/-- The block of text whose head starts at a place, inside blocks that are indented by `parent?`. -/
def block? (style : Style) (parent? : Option Nat) (c : Cursor) : Option (List Char × Cursor) := do
  let (head, n) ← blockHead? c.rest.tail
  let c ← (c.skip (n + 1)).endLine?
  let given? := head.indent?.map (parent?.getD 0 + ·)
  let e ← emptyLines? given? 0 c.pos c.rest
  let least := max 1 (parent?.elim 0 (· + 1))
  let indent := given?.getD (max e.widest least)
  blockLines? style head.chomping indent (c.rest.length + 1) none false e

end M32.Yaml
