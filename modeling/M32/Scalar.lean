/-
  The four scalar types and their literals.

  Every scalar value is one word.  `Scalar.encode?` reads a literal of a type as the word that stands for it:
  a signed or unsigned integer, `true` or `false`, a character in single quotes or its number.
  `Scalar.render` writes a word as such a literal; characters are written as numbers.
-/
import M32.Literal
import M32.Word

namespace M32

/-- The types of the values that fill one word and are no pointers. -/
inductive Scalar where
  | int | uint | bool | char
  deriving DecidableEq, Repr

namespace Scalar

/-- All scalar types. -/
def all : List Scalar := [int, uint, bool, char]

/-- The name of a scalar type. -/
def name : Scalar → String
  | int => "int"
  | uint => "uint"
  | bool => "bool"
  | char => "char"

/-- The scalar type of a name. -/
def ofName? (cs : List Char) : Option Scalar := all.find? (·.name.toList = cs)

/-- An integer from 0 to 2^32 - 1 as a word. -/
def unsigned? (cs : List Char) : Option Word :=
  (Literal.read? cs).bind fun v => if fitsUnsigned 32 v then some (Word.ofInt v) else none

/-- An integer from -2^31 to 2^31 - 1 as a word. -/
def signed? (cs : List Char) : Option Word :=
  (Literal.read? cs).bind fun v => if fitsSigned 32 v then some (Word.ofInt v) else none

/-- A literal without the letter that marks it as unsigned. -/
def dropUnsignedMark (cs : List Char) : List Char :=
  if cs.getLast? = some 'u' || cs.getLast? = some 'U' then cs.dropLast else cs

/-- What stands between single quotes. -/
def unquote? : List Char → Option (List Char)
  | '\'' :: cs => if cs.getLast? = some '\'' then some cs.dropLast else none
  | _ => none

/-- The word of a literal. -/
def encode? (ty : Scalar) (cs : List Char) : Option Word :=
  let cs := Text.trim cs
  match ty with
  | int => signed? cs
  | uint => unsigned? (dropUnsignedMark cs)
  | bool =>
    if cs = "true".toList || cs = ['1'] then some 1
    else if cs = "false".toList || cs = ['0'] then some 0
    else none
  | char => match unquote? cs with
    | some [c] => some (UInt32.ofNat c.toNat)
    | some _ => none
    | none => unsigned? cs

/-- The literal of a word. -/
def render (ty : Scalar) (w : Word) : String :=
  match ty with
  | int => toString w.toInt
  | uint | char => toString w.toNat
  | bool => if w = 0 then "false" else "true"

example : int.encode? "-1".toList = some 0xFFFFFFFF ∧ uint.encode? "7u".toList = some 7 ∧ char.encode? "'a'".toList = some 97
    := by decide +kernel

end Scalar

end M32
