/-
  Machine words: thirty-two bits, their bytes and their signed reading.

  1. `Word.ofInt` wraps an integer, `Word.ofImm` extends a 16-bit immediate by its sign.
  2. `Word.bytes` and `Word.ofBytes` are inverse (`ofBytes_bytes`), the first byte the highest.
  3. `Word.text` writes a word as eight hexadecimal digits.
-/
import M32.Text.Columns

namespace M32

/-- A machine word. -/
abbrev Word := UInt32

namespace Word

/-! ## Integers -/

/-- The word of an integer, modulo 2^32. -/
def ofInt (v : Int) : Word := (Int32.ofInt v).toUInt32

/-- A word read in two's complement. -/
def toInt (w : Word) : Int := w.toInt32.toInt

/-- A 16-bit immediate, extended by its sign. -/
def ofImm (v : Int16) : Word := v.toInt32.toUInt32

/-- The word 1 or 0 for a condition. -/
def ofBool (b : Bool) : Word := if b then 1 else 0

/-! ## Bytes -/

/-- The byte that starts at bit `shift`. -/
def byteAt (w shift : Word) : UInt8 := (w >>> shift).toUInt8

/-- The bytes of a word, the highest first. -/
def bytes (w : Word) : List UInt8 := [w.byteAt 24, w.byteAt 16, w.byteAt 8, w.byteAt 0]

/-- The word of four bytes, the highest first. -/
def ofBytes (a b c d : UInt8) : Word := a.toUInt32 <<< 24 ||| b.toUInt32 <<< 16 ||| c.toUInt32 <<< 8 ||| d.toUInt32

theorem ofBytes_bytes (w : Word) : ofBytes (w.byteAt 24) (w.byteAt 16) (w.byteAt 8) (w.byteAt 0) = w := by
  apply UInt32.eq_of_toBitVec_eq
  simp only [ofBytes, byteAt, UInt32.toBitVec_or, UInt32.toBitVec_shiftLeft, UInt8.toBitVec_toUInt32,
    UInt32.toBitVec_toUInt8, UInt32.toBitVec_shiftRight]
  apply BitVec.eq_of_getLsbD_eq
  intro i hi
  simp [BitVec.getLsbD_or, BitVec.getLsbD_shiftLeft]
  obtain h | h | h | h : i < 8 ∨ 8 ≤ i ∧ i < 16 ∨ 16 ≤ i ∧ i < 24 ∨ 24 ≤ i := by omega
  · simp [h, hi, show i < 16 by omega, show i < 24 by omega]
  · simp [h, hi, show i < 24 by omega, show ¬ i < 8 by omega, show i - 8 < 8 by omega, show i - 8 < 32 by omega,
      show 8 + (i - 8) = i by omega]
  · simp [h, hi, show ¬ i < 8 by omega, show ¬ i < 16 by omega, show ¬ i - 8 < 8 by omega, show i - 16 < 8 by omega,
      show i - 16 < 32 by omega, show 16 + (i - 16) = i by omega]
  · simp [h, hi, show ¬ i < 8 by omega, show ¬ i < 16 by omega, show ¬ i - 8 < 8 by omega, show ¬ i - 16 < 8 by omega,
      show i - 24 < 8 by omega, show i - 24 < 32 by omega, show 24 + (i - 24) = i by omega]

/-! ## Text -/

/-- A word in eight hexadecimal digits. -/
def text (w : Word) : String := Text.hex 8 w.toNat

/-- A word in eight hexadecimal digits after the mark `0x`. -/
def marked (w : Word) : String := "0x" ++ w.text

end Word

end M32
