/-
  Places in the text of a document.

  1. Five characters break lines, and a carriage return with a line feed after it is one break.
  2. `Cursor` is the text that remains and where it starts: how many bytes and lines lie before it, and in which column
     it stands.  Bytes are those of UTF-8, and each character takes one column, a byte order mark as well.
-/
namespace M32.Yaml

/-! ## Characters -/

/-- Characters that break lines. -/
def isBreak (c : Char) : Bool := c == '\n' || c == '\r' || c == '\u0085' || c == '\u2028' || c == '\u2029'

/-- Blanks inside a line. -/
def isSpace (c : Char) : Bool := c == ' ' || c == '\t'

/-- Characters that may not stand in a document. -/
def isForbidden (c : Char) : Bool :=
  (c.toNat < 0x20 && c ≠ '\t' && !isBreak c) || (0x7F ≤ c.toNat && c.toNat < 0xA0 && !isBreak c)
    || c.toNat == 0xFFFE || c.toNat == 0xFFFF

/-- Characters of which names consist. -/
def isNameChar (c : Char) : Bool := c.isAlphanum || c == '_' || c == '-'

/-- Characters that part the items of lists and mappings in brackets. -/
def isFlowMark (c : Char) : Bool := c == ',' || c == '[' || c == ']' || c == '{' || c == '}'

/-- Whether a word ends where a text starts: at its end, a blank or a break. -/
def endsWord : List Char → Bool
  | [] => true
  | c :: _ => isSpace c || isBreak c

/-- What a line break is worth in a text: a line feed, unless it is one of Unicode's separators. -/
def breakText (c : Char) : Char := if c == '\u2028' || c == '\u2029' then c else '\n'

/-! ## Places -/

/-- The number of bytes and lines before a place, and its column. -/
structure Position where
  index : Nat := 0
  line : Nat := 0
  column : Nat := 0
  deriving DecidableEq, Repr

/-- The place after a character that breaks no line. -/
def Position.skip (p : Position) (c : Char) : Position :=
  { p with index := p.index + c.utf8Size, column := p.column + 1 }

/-- The place after a break of so many bytes. -/
def Position.breakLine (p : Position) (bytes : Nat) : Position := ⟨p.index + bytes, p.line + 1, 0⟩

/-- The text that remains, and where it starts. -/
structure Cursor where
  rest : List Char
  pos : Position := {}
  deriving DecidableEq, Repr

namespace Cursor

/-- Passes characters that break no line. -/
def skip (c : Cursor) (n : Nat) : Cursor := ⟨c.rest.drop n, (c.rest.take n).foldl Position.skip c.pos⟩

/-- Passes a line break, if one comes next. -/
def breakLine (c : Cursor) : Cursor :=
  match c.rest with
  | '\r' :: '\n' :: cs => ⟨cs, c.pos.breakLine 2⟩
  | ch :: cs => if isBreak ch then ⟨cs, c.pos.breakLine ch.utf8Size⟩ else c
  | [] => c

/-- The characters of a kind that come next, none of which breaks a line. -/
def takeWhile (c : Cursor) (isKind : Char → Bool) : List Char := c.rest.takeWhile isKind

/-- Passes the characters of a kind, none of which breaks a line. -/
def dropWhile (c : Cursor) (isKind : Char → Bool) : Cursor := c.skip (c.takeWhile isKind).length

/-- Passes the rest of the line, but for its break. -/
def dropLine (c : Cursor) : Cursor := c.dropWhile (!isBreak ·)

/-- Passes a byte order mark, if a line starts with one. -/
def dropOrderMark (c : Cursor) : Cursor :=
  if c.pos.column == 0 && c.rest.head? = some '\uFEFF' then c.skip 1 else c

/-- Passes a comment, if one comes next. -/
def dropComment (c : Cursor) : Cursor := if c.rest.head? = some '#' then c.dropLine else c

/-- Whether a line starts here with a word that parts documents. -/
def isAtMark (c : Cursor) (mark : String) : Bool :=
  c.pos.column == 0 && mark.toList.isPrefixOf c.rest && endsWord (c.rest.drop mark.length)

/-- Whether a document starts or ends in this line. -/
def isAtDocument (c : Cursor) : Bool := c.isAtMark "---" || c.isAtMark "..."

/-- Passes what may stand at the end of a line after a directive or the head of a block of text. -/
def endLine? (c : Cursor) : Option Cursor :=
  let c := (c.dropWhile isSpace).dropComment
  match c.rest with
  | [] => some c
  | ch :: _ => if isBreak ch then some c.breakLine else none

end Cursor

end M32.Yaml
