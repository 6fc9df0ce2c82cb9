/-
  Scalars: the texts that a document is made of.

  A scalar remembers how it was written, since only some ways of writing it make it a number.  `Scalar.natural?` reads
  a number: decimal, or in the base that `0x`, `0o` or `0b` marks, after an optional plus sign.  Leading zeros make a
  decimal text no number.
-/
import M32.Literal

namespace M32.Yaml

/-- How a scalar is written: as it is, in quotes, or in lines of its own that are kept or folded. -/
inductive Style where
  | plain | single | double | literal | folded
  deriving DecidableEq, Repr

/-- A text, how it is written and the tag before it. -/
structure Scalar where
  style : Style
  text : List Char
  tag : Option String := none
  deriving DecidableEq, Repr

namespace Scalar

/-- What stands where a value is left out. -/
def empty : Scalar := ⟨.plain, [], none⟩

/-- Whether a value is left out. -/
def isEmpty (s : Scalar) : Bool := s.style = .plain && s.text.isEmpty

/-- The tag of integers. -/
def intTag : String := "tag:yaml.org,2002:int"

/-- Whether a scalar may be a number: it is plain, or a literal block with the tag of integers. -/
def isNumeral (s : Scalar) : Bool := s.style = .plain || (s.style = .literal && s.tag = some intTag)

/-- Whether a decimal text starts with a zero that another digit follows. -/
def hasLeadingZero : List Char → Bool
  | '0' :: c :: cs => (c :: cs).all Char.isDigit
  | _ => false

/-- The natural number that a text means. -/
def naturalOf? (cs : List Char) : Option Nat :=
  let body := match cs with
    | '+' :: rest => rest
    | cs => cs
  let marked := match body with
    | '0' :: 'x' :: ds => digitsValue? 16 ds
    | '0' :: 'o' :: ds => digitsValue? 8 ds
    | '0' :: 'b' :: ds => digitsValue? 2 ds
    | _ => none
  match marked with
  | some n => some n
  | none => if hasLeadingZero body then none else digitsValue? 10 body

/-- The number that a scalar means. -/
def natural? (s : Scalar) : Option Nat := if s.isNumeral then naturalOf? s.text else none

end Scalar

end M32.Yaml
