/-
  The fields of an instruction word, before an operation gives them a meaning.

  1. `Fields` has one constructor for each of the three layouts.  A field is a whole byte or half word, and
     `toWord` keeps as many low bits of it as its place in the word has.
  2. `ofWord` takes any word apart; which layout applies hangs on the opcode alone, and an unknown opcode
     is taken apart as an immediate one.
  3. `bitString` and `ofBitString?` are a word in thirty-two binary digits.
-/
import M32.Literal
import M32.Word

namespace M32

/-! ## Layouts -/

/-- The raw fields of an instruction word. -/
inductive Fields where
  | r (opcode rs rt rd amount funct : UInt8)
  | i (opcode rs rt : UInt8) (imm : UInt16)
  | j (opcode : UInt8) (index : Word)
  deriving DecidableEq, Repr

namespace Fields

/-- The low bits of a byte that `mask` keeps, moved up to bit `shift`. -/
def place (field : UInt8) (mask shift : Word) : Word := (field.toUInt32 &&& mask) <<< shift

/-- The bits of a word from bit `shift` that `mask` keeps. -/
def pick (w mask shift : Word) : UInt8 := ((w >>> shift) &&& mask).toUInt8

/-- The word that holds the fields. -/
def toWord : Fields → Word
  | r opcode rs rt rd amount funct =>
    place opcode 0x3F 26 ||| place rs 0x1F 21 ||| place rt 0x1F 16 ||| place rd 0x1F 11 ||| place amount 0x1F 6
      ||| place funct 0x3F 0
  | i opcode rs rt imm => place opcode 0x3F 26 ||| place rs 0x1F 21 ||| place rt 0x1F 16 ||| imm.toUInt32
  | j opcode index => place opcode 0x3F 26 ||| (index &&& 0x3FFFFFF)

/-- The fields of a word. -/
def ofWord (w : Word) : Fields :=
  match pick w 0x3F 26 with
  | 0x00 => r 0x00 (pick w 0x1F 21) (pick w 0x1F 16) (pick w 0x1F 11) (pick w 0x1F 6) (pick w 0x3F 0)
  | 0x10 => r 0x10 (pick w 0x1F 21) (pick w 0x1F 16) (pick w 0x1F 11) (pick w 0x1F 6) (pick w 0x3F 0)
  | 0x02 => j 0x02 (w &&& 0x3FFFFFF)
  | 0x03 => j 0x03 (w &&& 0x3FFFFFF)
  | opcode => i opcode (pick w 0x1F 21) (pick w 0x1F 16) w.toUInt16

end Fields

/-! ## Binary text -/

/-- A word in thirty-two binary digits, the highest first. -/
def bitString (w : Word) : String := Text.binary 32 w.toNat

/-- The word of thirty-two binary digits, blanks around them allowed. -/
def ofBitString? (cs : List Char) : Option Word :=
  let ds := Text.trim cs
  if ds.length = 32 then (digitsValue? 2 ds).map UInt32.ofNat else none

example : bitString 10 = "00000000000000000000000000001010" ∧ ofBitString? (bitString 10).toList = some 10 := by
  decide +kernel

end M32
