/-
  The forty-one operations of the machine.

  An `Op` is an instruction without its operands.  Operations that differ only in what is computed or tested share a
  constructor: `shift .sra`, `arith .nor`, `branchZero .lez`.
  1. `name` and `ofName?`: how an operation is written, in any ASCII case when read (`ofName?_name`).
  2. `slots`: the operands an operation takes, in the order in which they are written.
  3. `format`, `opcode` and `subCode`: which of the three layouts an instruction word has and which numbers
     select the operation in it; `ofCodes?` finds the operation again (`ofCodes?_codes`).
-/
import M32.Alu

namespace M32

/-! ## Kinds of operations -/

/-- Tests of a register against zero. -/
inductive ZeroTest where
  | ltz | gez | lez | gtz
  deriving DecidableEq, Repr

/-- Whether a word, read with its sign, passes a test. -/
def ZeroTest.holds (test : ZeroTest) (w : Word) : Bool :=
  match test with
  | ltz => w.toInt32 < 0
  | gez => 0 ≤ w.toInt32
  | lez => w.toInt32 ≤ 0
  | gtz => 0 < w.toInt32

/-- Tests of two registers against each other. -/
inductive PairTest where
  | eq | ne
  deriving DecidableEq, Repr

/-- Whether two words pass a test. -/
def PairTest.holds (test : PairTest) (a b : Word) : Bool :=
  match test with
  | eq => a == b
  | ne => a != b

/-- Operations with a signed immediate. -/
inductive SignedOp where
  | addi | addiu | slti | sltiu
  deriving DecidableEq, Repr

/-- What an operation with a signed immediate computes, once the immediate is extended. -/
def SignedOp.arith : SignedOp → Arith
  | addi | addiu => .add
  | slti => .slt
  | sltiu => .sltu

/-- Operations with an unsigned immediate. -/
inductive BitsOp where
  | andi | ori | xori
  deriving DecidableEq, Repr

/-- What an operation with an unsigned immediate computes. -/
def BitsOp.arith : BitsOp → Arith
  | andi => .and
  | ori => .or
  | xori => .xor

/-- An operation of the machine. -/
inductive Op where
  | shift (op : Shift)
  | shiftBy (op : Shift)
  | jr
  | jalr
  | syscall
  | halt
  | arith (op : Arith)
  | mfs
  | mts
  | eret
  | branchZero (test : ZeroTest)
  | jump (link : Bool)
  | branch (test : PairTest)
  | signed (op : SignedOp)
  | bits (op : BitsOp)
  | lui
  | lw
  | sw
  deriving DecidableEq, Repr

namespace Op

/-- All operations, those of one layout and use together. -/
def all : List Op :=
  [shift .sll, shift .srl, shift .sra, shiftBy .sll, shiftBy .srl, shiftBy .sra, jr, jalr, syscall, halt,
    arith .add, arith .addu, arith .sub, arith .subu, arith .and, arith .or, arith .xor, arith .nor, arith .slt,
    arith .sltu, mfs, mts, eret, branchZero .ltz, branchZero .gez, jump false, jump true, branch .eq, branch .ne,
    branchZero .lez, branchZero .gtz, signed .addi, signed .addiu, signed .slti, signed .sltiu, bits .andi, bits .ori,
    bits .xori, lui, lw, sw]

/-! ## Names -/

/-- How an operation is written. -/
def name : Op → String
  | shift .sll => "sll"
  | shift .srl => "srl"
  | shift .sra => "sra"
  | shiftBy .sll => "sllv"
  | shiftBy .srl => "srlv"
  | shiftBy .sra => "srav"
  | jr => "jr"
  | jalr => "jalr"
  | syscall => "syscall"
  | halt => "halt"
  | arith .add => "add"
  | arith .addu => "addu"
  | arith .sub => "sub"
  | arith .subu => "subu"
  | arith .and => "and"
  | arith .or => "or"
  | arith .xor => "xor"
  | arith .nor => "nor"
  | arith .slt => "slt"
  | arith .sltu => "sltu"
  | mfs => "mfs"
  | mts => "mts"
  | eret => "eret"
  | branchZero .ltz => "bltz"
  | branchZero .gez => "bgez"
  | branchZero .lez => "blez"
  | branchZero .gtz => "bgtz"
  | jump false => "j"
  | jump true => "jal"
  | branch .eq => "beq"
  | branch .ne => "bne"
  | signed .addi => "addi"
  | signed .addiu => "addiu"
  | signed .slti => "slti"
  | signed .sltiu => "sltiu"
  | bits .andi => "andi"
  | bits .ori => "ori"
  | bits .xori => "xori"
  | lui => "lui"
  | lw => "lw"
  | sw => "sw"

/-- The operation that a name means, in any ASCII case. -/
def ofName? (cs : List Char) : Option Op :=
  let lower := String.ofList (cs.map Char.toLower)
  all.find? (·.name = lower)

theorem ofName?_name (op : Op) : ofName? op.name.toList = some op := by
  cases op <;> (try rename_i k; cases k) <;> decide +kernel

/-! ## Operands -/

/-- What an operand of an instruction means. -/
inductive Slot where
  | rd | rs | rt | amount | signed | unsigned | index | selector
  deriving DecidableEq, Repr

/-- The values that a slot takes, in words. -/
def Slot.describe : Slot → String
  | rd | rs | rt => "register (0..31)"
  | amount => "shift amount (0..31)"
  | signed => "signed 16-bit immediate"
  | unsigned => "unsigned 16-bit immediate"
  | index => "26-bit jump index or label"
  | selector => "special register"

/-- The operands of an operation, in the order in which they are written. -/
def slots : Op → List Slot
  | shift _ => [.rd, .rt, .amount]
  | shiftBy _ => [.rd, .rt, .rs]
  | jr => [.rs]
  | jalr => [.rd, .rs]
  | syscall | halt | eret => []
  | arith _ => [.rd, .rs, .rt]
  | mfs | mts => [.rt, .selector]
  | branchZero _ => [.rs, .signed]
  | jump _ => [.index]
  | branch _ => [.rs, .rt, .signed]
  | signed _ => [.rt, .rs, .signed]
  | bits _ => [.rt, .rs, .unsigned]
  | lui => [.rt, .unsigned]
  | lw | sw => [.rt, .rs, .signed]

/-! ## Numbers -/

/-- The layouts of an instruction word. -/
inductive Format where
  | r | i | j
  deriving DecidableEq, Repr

/-- The layout of the words of an operation. -/
def format : Op → Format
  | jump _ => .j
  | shift _ | shiftBy _ | jr | jalr | syscall | halt | arith _ | mfs | mts | eret => .r
  | branchZero _ | branch _ | signed _ | bits _ | lui | lw | sw => .i

/-- The number in the high six bits of the words of an operation. -/
def opcode : Op → UInt8
  | shift _ | shiftBy _ | jr | jalr | syscall | halt | arith _ => 0x00
  | branchZero .ltz | branchZero .gez => 0x01
  | jump false => 0x02
  | jump true => 0x03
  | branch .eq => 0x04
  | branch .ne => 0x05
  | branchZero .lez => 0x06
  | branchZero .gtz => 0x07
  | signed .addi => 0x08
  | signed .addiu => 0x09
  | signed .slti => 0x0A
  | signed .sltiu => 0x0B
  | bits .andi => 0x0C
  | bits .ori => 0x0D
  | bits .xori => 0x0E
  | lui => 0x0F
  | mfs | mts | eret => 0x10
  | lw => 0x23
  | sw => 0x2B

/-- The number that tells operations of one opcode apart: in the low six bits of opcodes 0 and 16, in the
    second register field of opcode 1, and zero elsewhere. -/
def subCode : Op → UInt8
  | shift op => op.code
  | shiftBy op => op.code + 4
  | jr => 0x08
  | jalr => 0x09
  | syscall => 0x0C
  | halt => 0x0D
  | arith op => op.code
  | mts => 0x04
  | eret => 0x18
  | branchZero .gez => 0x01
  | _ => 0x00

/-- The operation of opcode 0 with a number in the low bits. -/
def ofFunct? : UInt8 → Option Op
  | 0x04 => some (shiftBy .sll)
  | 0x06 => some (shiftBy .srl)
  | 0x07 => some (shiftBy .sra)
  | 0x08 => some jr
  | 0x09 => some jalr
  | 0x0C => some syscall
  | 0x0D => some halt
  | code =>
    match Shift.ofCode? code with
    | some op => some (shift op)
    | none => (Arith.ofCode? code).map arith

/-- The operation of an opcode, a number in the low bits and a second register field. -/
def ofCodes? (opcode funct rt : UInt8) : Option Op :=
  match opcode with
  | 0x00 => ofFunct? funct
  | 0x01 => match rt with
    | 0x00 => some (branchZero .ltz)
    | 0x01 => some (branchZero .gez)
    | _ => none
  | 0x02 => some (jump false)
  | 0x03 => some (jump true)
  | 0x04 => some (branch .eq)
  | 0x05 => some (branch .ne)
  | 0x06 => some (branchZero .lez)
  | 0x07 => some (branchZero .gtz)
  | 0x08 => some (signed .addi)
  | 0x09 => some (signed .addiu)
  | 0x0A => some (signed .slti)
  | 0x0B => some (signed .sltiu)
  | 0x0C => some (bits .andi)
  | 0x0D => some (bits .ori)
  | 0x0E => some (bits .xori)
  | 0x0F => some lui
  | 0x10 => match funct with
    | 0x00 => some mfs
    | 0x04 => some mts
    | 0x18 => some eret
    | _ => none
  | 0x23 => some lw
  | 0x2B => some sw
  | _ => none

theorem ofCodes?_codes (op : Op) : ofCodes? op.opcode op.subCode op.subCode = some op := by
  cases op <;> (try rename_i k; cases k) <;> rfl

end Op

end M32
