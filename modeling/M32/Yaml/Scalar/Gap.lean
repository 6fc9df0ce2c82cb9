/-
  Gaps between the words of a scalar.

  A gap is a run of blanks and line breaks.  Inside a line it keeps its blanks.  Over lines its blanks are dropped; one
  break is a blank, and of several all but the first are kept.
-/
import M32.Yaml.Cursor

namespace M32.Yaml

/-- Blanks and line breaks between two words. -/
structure Gap where
  /-- The blanks before the first break. -/
  blanks : List Char := []
  /-- Whether the gap runs over lines. -/
  isBroken : Bool := false
  /-- The first break, unless a backslash stood before it. -/
  first? : Option Char := none
  /-- The breaks after it. -/
  more : List Char := []
  deriving DecidableEq, Repr

namespace Gap

/-- The gap after a backslash at the end of a line. -/
def joined : Gap := { isBroken := true }

/-- Adds a blank. -/
def addBlank (g : Gap) (c : Char) : Gap := if g.isBroken then g else { g with blanks := g.blanks ++ [c] }

/-- Adds a line break. -/
def addBreak (g : Gap) (c : Char) : Gap :=
  if g.isBroken then { g with more := g.more ++ [breakText c] } else ⟨[], true, some (breakText c), []⟩

/-- What a gap is worth in the text. -/
def text (g : Gap) : List Char :=
  if g.isBroken then
    match g.first? with
    | some '\n' => if g.more.isEmpty then [' '] else g.more
    | some c => c :: g.more
    | none => g.more
  else g.blanks

/-- Extends a gap over what comes next.  A tab left of the column `least` is refused in later lines. -/
def extend? (least : Nat) (g : Gap) (p : Position) : List Char → Option (Gap × Cursor)
  | [] => some (g, ⟨[], p⟩)
  | '\r' :: '\n' :: cs => (g.addBreak '\n').extend? least (p.breakLine 2) cs
  | c :: cs =>
    if isSpace c then
      if g.isBroken && p.column < least && c == '\t' then none else (g.addBlank c).extend? least (p.skip c) cs
    else if isBreak c then (g.addBreak c).extend? least (p.breakLine c.utf8Size) cs
    else some (g, ⟨c :: cs, p⟩)

end Gap

end M32.Yaml
