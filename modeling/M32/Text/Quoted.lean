/-
  Quoted text, as messages show what was read.

  A quoted text stands between its quotes.  Inside, the quote and the backslash take a backslash, tab, carriage
  return, line feed and NUL have their letters, and every hidden character is written by its number in braces.
  `quotedChar` uses single quotes and `quotedString` double ones.
-/
import M32.Text.Columns
import M32.Text.Hidden

namespace M32.Text

/-- One character between quotes of the kind `quote`. -/
def escapedChar (quote c : Char) : String :=
  if c = '\x00' then "\\0"
  else if c = '\t' then "\\t"
  else if c = '\r' then "\\r"
  else if c = '\n' then "\\n"
  else if c = '\\' || c = quote then "\\" ++ String.singleton c
  else if isHidden c then "\\u\x7b" ++ (hex 1 c.toNat).toLower ++ "\x7d"
  else String.singleton c

/-- A character in single quotes. -/
def quotedChar (c : Char) : String := "'" ++ escapedChar '\'' c ++ "'"

/-- A text in double quotes. -/
def quotedString (s : String) : String := "\"" ++ String.join (s.toList.map (escapedChar '"')) ++ "\""

end M32.Text
