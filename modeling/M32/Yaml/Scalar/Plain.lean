/-
  Scalars that are written as they are.

  A plain scalar is a row of words.  A word ends before a blank or a colon that a blank follows, and in brackets before
  the marks that part items.  The scalar ends there too, unless blanks and breaks lead to another word: not to a
  comment, not to the mark of a document, and outside brackets not to a column left of the scalar's block.
-/
import M32.Yaml.Scalar
import M32.Yaml.Scalar.Gap

namespace M32.Yaml

/-- The word that a text starts with.  In brackets, a colon right before one of some marks is refused. -/
def plainWord? (inFlow : Bool) : List Char → Option (List Char)
  | [] => some []
  | c :: cs =>
    if isSpace c || isBreak c then some []
    else if inFlow && c == ':' && cs.head?.any (fun d => isFlowMark d || d == '?') then none
    else if (c == ':' && endsWord cs) || (inFlow && isFlowMark c) then some []
    else (plainWord? inFlow cs).map (c :: ·)

/-- A plain scalar, and whether a new line was begun after it. -/
structure PlainText where
  text : List Char
  isBroken : Bool
  rest : Cursor

/-- The rest of a plain scalar after a gap.  Lines after the first start in column `least` or right of it. -/
def plainRest? (inFlow : Bool) (least : Nat) : (fuel : Nat) → Gap → Cursor → Option PlainText
  | 0, _, _ => none
  | fuel + 1, g, c =>
    if c.isAtDocument || c.rest.head? = some '#' then some ⟨[], g.isBroken, c⟩
    else do
      let word ← plainWord? inFlow c.rest
      if word.isEmpty then return ⟨[], g.isBroken, c⟩
      let c := c.skip word.length
      let (gap, after) ← Gap.extend? least {} c.pos c.rest
      let more ←
        if !inFlow && after.pos.column < least then some ⟨[], gap.isBroken, after⟩
        else plainRest? inFlow least fuel gap after
      return { more with text := g.text ++ word ++ more.text }

/-- The plain scalar that starts at a place. -/
def plain? (inFlow : Bool) (least : Nat) (c : Cursor) : Option PlainText :=
  plainRest? inFlow least (c.rest.length + 1) {} c

end M32.Yaml
