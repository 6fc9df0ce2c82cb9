/-
  Marks before nodes and documents: names, tags and directives.

  1. A name marks a node or stands for the node that it marks.
  2. A tag is a handle and a text, or a text in angle brackets.  A handle is `!`, `!!` or a name between exclamation
     marks; a percent sign starts a byte in hexadecimal.
  3. A directive has a line of its own: it names a version, or what tags with a handle start with.
-/
import M32.Text.Utf8
import M32.Yaml.Cursor
import M32.Yaml.Token

namespace M32.Yaml

/-! ## Names -/

/-- Characters that may follow a name although no blank does. -/
def endsName (cs : List Char) : Bool :=
  endsWord cs || cs.head?.any fun c => ['?', ':', ',', ']', '}', '%', '@', '\x60'].contains c

/-- A name after its mark. -/
def name? (c : Cursor) : Option (String × Cursor) :=
  let name := c.takeWhile isNameChar
  let after := c.skip name.length
  if name.isEmpty || !endsName after.rest then none else some (String.ofList name, after)

/-! ## Tags -/

/-- Characters of which tags consist. -/
def isTagChar (c : Char) : Bool := isNameChar c || ";/?:@&=+$.%!~*'()".toList.contains c

/-- Characters that stand in tags in angle brackets and in what tags start with, besides those of all tags. -/
def isTagCharInBrackets (c : Char) : Bool := isTagChar c || c == ',' || c == '[' || c == ']'

/-- The byte of two hexadecimal digits after a percent sign. -/
def percentByte? : List Char → Option UInt8
  | a :: b :: _ => (digitsValue? 16 [a, b]).map UInt8.ofNat
  | _ => none

/-- The bytes that some characters of a tag mean. -/
def tagBytes? : List Char → Option (List UInt8)
  | [] => some []
  | c :: cs =>
    if c = '%' then
      match percentByte? cs with
      | some b => (tagBytes? (cs.drop 2)).map (b :: ·)
      | none => none
    else (tagBytes? cs).map (c.toString.toUTF8.toList ++ ·)
termination_by cs => cs.length
decreasing_by
  · simp only [List.length_drop, List.length_cons]; omega
  · simp

/-- The text that some characters of a tag mean. -/
def tagText? (cs : List Char) : Option String :=
  (tagBytes? cs).bind fun bs => (Text.ofUtf8? ⟨bs.toArray⟩).map String.ofList

/-- The characters of a handle that come next: exclamation marks and a name between them.  Without the second mark
    they may be the start of a tag instead. -/
def handleChars (cs : List Char) : List Char :=
  match cs with
  | '!' :: rest =>
    let name := rest.takeWhile isNameChar
    '!' :: name ++ (if (rest.drop name.length).head? = some '!' then ['!'] else [])
  | _ => []

/-- Whether some characters are a handle of two marks. -/
def isWholeHandle (cs : List Char) : Bool := 1 < cs.length && cs.getLast? = some '!'

/-- Whether a tag ends where a text starts. -/
def endsTag (inFlow : Bool) (cs : List Char) : Bool := endsWord cs || (inFlow && cs.head? = some ',')

/-- A tag in angle brackets. -/
def bracketTag? (c : Cursor) : Option (Token × Cursor) := do
  let c := c.skip 2
  let chars := c.takeWhile isTagCharInBrackets
  let c := c.skip chars.length
  let text ← tagText? chars
  if chars.isEmpty || c.rest.head? ≠ some '>' then none else some (.tag "" text, c.skip 1)

/-- A tag without brackets.  The tag `!` has no handle. -/
def handleTag? (c : Cursor) : Option (Token × Cursor) := do
  let handle := handleChars c.rest
  let c := c.skip handle.length
  let chars := c.takeWhile isTagChar
  let c := c.skip chars.length
  if isWholeHandle handle then
    let text ← tagText? chars
    if chars.isEmpty then none else some (.tag (String.ofList handle) text, c)
  else
    let rest ← tagText? chars
    let text := String.ofList handle.tail ++ rest
    some (if text.isEmpty then .tag "" "!" else .tag "!" text, c)

/-- The tag that starts at a place. -/
def tag? (inFlow : Bool) (c : Cursor) : Option (Token × Cursor) := do
  let (t, c) ← if c.rest.tail.head? = some '<' then bracketTag? c else handleTag? c
  if endsTag inFlow c.rest then some (t, c) else none

/-! ## Directives -/

/-- The digits of a version, at most nine. -/
def versionDigits? (c : Cursor) : Option (Nat × Cursor) :=
  let digits := c.takeWhile Char.isDigit
  if 9 < digits.length then none else (digitsValue? 10 digits).map fun n => (n, c.skip digits.length)

/-- A version after its name. -/
def version? (c : Cursor) : Option (Token × Cursor) := do
  let (major, c) ← versionDigits? (c.dropWhile isSpace)
  if c.rest.head? ≠ some '.' then none
  else
    let (minor, c) ← versionDigits? (c.skip 1)
    some (.version major minor, c)

/-- What tags start with, after the name of the directive. -/
def tagPrefix? (c : Cursor) : Option (Token × Cursor) := do
  let c := c.dropWhile isSpace
  let handle := handleChars c.rest
  let c := c.skip handle.length
  if !(handle = ['!'] || isWholeHandle handle) || !c.rest.head?.any isSpace then none
  else
    let c := c.dropWhile isSpace
    let chars := c.takeWhile isTagCharInBrackets
    let c := c.skip chars.length
    let text ← tagText? chars
    if chars.isEmpty || !endsWord c.rest then none else some (.tagPrefix (String.ofList handle) text, c)

/-- The directive that starts at a place, to the end of its line. -/
def directive? (c : Cursor) : Option (Token × Cursor) := do
  let c := c.skip 1
  let name := c.takeWhile isNameChar
  let c := c.skip name.length
  if !endsWord c.rest then none
  else
    let (t, c) ← match String.ofList name with
      | "YAML" => version? c
      | "TAG" => tagPrefix? c
      | _ => none
    return (t, ← c.endLine?)

end M32.Yaml
