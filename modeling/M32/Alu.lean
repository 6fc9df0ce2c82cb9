/-
  What the arithmetic unit computes: three shifts and ten operations on two words.

  A shift uses the low five bits of its amount, so `UInt32`'s shift by an amount modulo 32 is the shift wanted.
  Sums and differences wrap, and nothing traps, so `add` and `addu` compute the same words (`add_eq_addu`).
  Each operation has the number by which the low bits of an instruction select it.
-/
import M32.Word

namespace M32

/-! ## Shifts -/

/-- A shift: to the left, to the right, or to the right with copies of the sign. -/
inductive Shift where
  | sll | srl | sra
  deriving DecidableEq, Repr

namespace Shift

/-- The word `a` shifted by the low five bits of `amount`. -/
def apply (op : Shift) (a amount : Word) : Word :=
  match op with
  | sll => a <<< amount
  | srl => a >>> amount
  | sra => (a.toInt32 >>> amount.toInt32).toUInt32

/-- The number of a shift. -/
def code : Shift → UInt8
  | sll => 0x00
  | srl => 0x02
  | sra => 0x03

/-- The shift of a number. -/
def ofCode? : UInt8 → Option Shift
  | 0x00 => some sll
  | 0x02 => some srl
  | 0x03 => some sra
  | _ => none

theorem ofCode?_code (op : Shift) : ofCode? op.code = some op := by cases op <;> rfl

end Shift

/-! ## Operations on two words -/

/-- An operation on two registers. -/
inductive Arith where
  | add | addu | sub | subu | and | or | xor | nor | slt | sltu
  deriving DecidableEq, Repr

namespace Arith

/-- The result of an operation on two words. -/
def apply (op : Arith) (a b : Word) : Word :=
  match op with
  | add | addu => a + b
  | sub | subu => a - b
  | and => a &&& b
  | or => a ||| b
  | xor => a ^^^ b
  | nor => ~~~(a ||| b)
  | slt => Word.ofBool (a.toInt32 < b.toInt32)
  | sltu => Word.ofBool (a < b)

/-- The number of an operation. -/
def code : Arith → UInt8
  | add => 0x20
  | addu => 0x21
  | sub => 0x22
  | subu => 0x23
  | and => 0x24
  | or => 0x25
  | xor => 0x26
  | nor => 0x27
  | slt => 0x2A
  | sltu => 0x2B

/-- The operation of a number. -/
def ofCode? : UInt8 → Option Arith
  | 0x20 => some add
  | 0x21 => some addu
  | 0x22 => some sub
  | 0x23 => some subu
  | 0x24 => some and
  | 0x25 => some or
  | 0x26 => some xor
  | 0x27 => some nor
  | 0x2A => some slt
  | 0x2B => some sltu
  | _ => none

theorem ofCode?_code (op : Arith) : ofCode? op.code = some op := by cases op <;> rfl

theorem add_eq_addu (a b : Word) : add.apply a b = addu.apply a b := rfl

end Arith

/-! ## The unit -/

/-- The result of the shift or operation of a number, if there is one. -/
def alu? (code : UInt8) (a b : Word) : Option Word :=
  match Shift.ofCode? code with
  | some op => some (op.apply a b)
  | none => (Arith.ofCode? code).map fun op => op.apply a b

example : alu? 0x03 0x80000000 33 = some 0xC0000000 ∧ alu? 0x2A 0xFFFFFFFF 0 = some 1 ∧ alu? 0x01 0 0 = none := by
  decide

end M32
