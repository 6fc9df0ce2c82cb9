/-
  Integer literals: an optional sign, an optional base mark, digits with separators.

  1. `digitValue?` and `digitsValue?` read digits of a base.
  2. `Literal.read?` reads a whole literal, blanks around it allowed.  The marks are `0x`, `0o` and `0b`, in either
     case; an underscore may stand anywhere among the digits, one digit has to be there, and the
     magnitude is at most 2^63 - 1.
  3. `fitsSigned` and `fitsUnsigned` say which integers a field of so many bits can hold.
-/
import M32.Text.Blank

namespace M32

/-! ## Digits -/

/-- The value of a digit in base 16 or less, letters in either case. -/
def digitValue? (base : Nat) (c : Char) : Option Nat :=
  let n := c.toNat
  let v := if 48 ≤ n && n ≤ 57 then n - 48
    else if 97 ≤ n && n ≤ 102 then n - 87
    else if 65 ≤ n && n ≤ 70 then n - 55
    else base
  if v < base then some v else none

/-- The value of a row of digits that continues the number `start`. -/
def digitsFrom? (base start : Nat) : List Char → Option Nat
  | [] => some start
  | c :: cs => (digitValue? base c).bind fun v => digitsFrom? base (start * base + v) cs

/-- The value of a row of digits, at least one. -/
def digitsValue? (base : Nat) (cs : List Char) : Option Nat :=
  if cs.isEmpty then none else digitsFrom? base 0 cs

theorem digitValue?_lt {base v : Nat} {c : Char} (h : digitValue? base c = some v) : v < base := by
  unfold digitValue? at h; grind

namespace Literal

/-! ## Literals -/

/-- The largest magnitude of a literal. -/
def maxMagnitude : Nat := 0x7FFFFFFFFFFFFFFF

/-- A text without its sign, and whether the sign was a minus. -/
def splitSign : List Char → Bool × List Char
  | '-' :: cs => (true, cs)
  | '+' :: cs => (false, cs)
  | cs => (false, cs)

/-- A text without its base mark, and the base that the mark names. -/
def splitBase : List Char → Nat × List Char
  | '0' :: 'x' :: cs => (16, cs)
  | '0' :: 'X' :: cs => (16, cs)
  | '0' :: 'o' :: cs => (8, cs)
  | '0' :: 'O' :: cs => (8, cs)
  | '0' :: 'b' :: cs => (2, cs)
  | '0' :: 'B' :: cs => (2, cs)
  | cs => (10, cs)

/-- The value of a row of digits and separators, if it is no larger than a literal may be. -/
def magnitude? (base : Nat) (cs : List Char) : Option Nat :=
  (digitsValue? base (cs.filter (· ≠ '_'))).filter (· ≤ maxMagnitude)

/-- The value of an integer literal. -/
def read? (cs : List Char) : Option Int :=
  let (negative, unsigned) := splitSign (Text.trim cs)
  let (base, body) := splitBase unsigned
  (magnitude? base body).map fun (m : Nat) => if negative then -(m : Int) else m

example : read? " -0x_fF ".toList = some (-255) ∧ read? "0b2".toList = none ∧ read? "-_".toList = none := by decide

end Literal

/-! ## Fields -/

/-- Whether an integer is a two's complement number of so many bits. -/
def fitsSigned (bits : Nat) (v : Int) : Bool :=
  let half : Int := Int.ofNat (1 <<< (bits - 1))
  v < half && -half ≤ v

/-- Whether an integer is an unsigned number of so many bits. -/
def fitsUnsigned (bits : Nat) (v : Int) : Bool := 0 ≤ v && v < Int.ofNat (1 <<< bits)

end M32
