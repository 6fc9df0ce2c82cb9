/-
  Instructions: an operation with its operands, as text and as a word.

  1. `Instr` follows the operations constructor by constructor; a shift amount and a jump index are kept whole,
     and `IsLegal` says that they fit their fields.
  2. `text` is what the assembler reads, `painted` the same in columns and colours.
  3. `toFields` puts the operands into the fields that their operation gives them, `ofFields` takes them out again
     and fails on numbers of no operation and on a selector above 7.
  4. `encode` and `decode` are these with the layout of the word.
-/
import M32.Fields
import M32.Op
import M32.Register
import M32.Text.Paint

namespace M32

/-! ## Instructions -/

/-- A machine instruction. -/
inductive Instr where
  | shift (op : Shift) (rd rt : Reg) (amount : UInt8)
  | shiftBy (op : Shift) (rd rt rs : Reg)
  | jr (rs : Reg)
  | jalr (rd rs : Reg)
  | syscall
  | halt
  | arith (op : Arith) (rd rs rt : Reg)
  | mfs (rt : Reg) (sel : SReg)
  | mts (rt : Reg) (sel : SReg)
  | eret
  | branchZero (test : ZeroTest) (rs : Reg) (offset : Int16)
  | jump (link : Bool) (index : Word)
  | branch (test : PairTest) (rs rt : Reg) (offset : Int16)
  | signed (op : SignedOp) (rt rs : Reg) (imm : Int16)
  | bits (op : BitsOp) (rt rs : Reg) (imm : UInt16)
  | lui (rt : Reg) (imm : UInt16)
  | lw (rt base : Reg) (offset : Int16)
  | sw (rt base : Reg) (offset : Int16)
  deriving DecidableEq, Repr

namespace Instr

/-- The operation of an instruction. -/
def op : Instr → Op
  | shift k .. => .shift k
  | shiftBy k .. => .shiftBy k
  | jr .. => .jr
  | jalr .. => .jalr
  | syscall => .syscall
  | halt => .halt
  | arith k .. => .arith k
  | mfs .. => .mfs
  | mts .. => .mts
  | eret => .eret
  | branchZero k .. => .branchZero k
  | jump link _ => .jump link
  | branch k .. => .branch k
  | signed k .. => .signed k
  | bits k .. => .bits k
  | lui .. => .lui
  | lw .. => .lw
  | sw .. => .sw

/-- The number of the first word index that a jump cannot name. -/
def indexLimit : Nat := 0x4000000

/-- Whether the operands fit their fields.  Only a shift amount and a jump index may fail to. -/
def IsLegal : Instr → Prop
  | shift _ _ _ amount => amount.toNat < 32
  | jump _ index => index.toNat < indexLimit
  | _ => True

instance : DecidablePred IsLegal := fun i => by cases i <;> (unfold IsLegal; infer_instance)

/-- A jump aimed at another word index.  Other instructions stay as they are. -/
def aim (i : Instr) (index : Word) : Instr :=
  match i with
  | jump link _ => jump link index
  | i => i

/-! ## Short forms -/

/-- The instruction `addi`. -/
abbrev addi (rt rs : Reg) (imm : Int16) : Instr := signed .addi rt rs imm

/-- The instruction `add`. -/
abbrev add (rd rs rt : Reg) : Instr := arith .add rd rs rt

/-- The instruction `addu`. -/
abbrev addu (rd rs rt : Reg) : Instr := arith .addu rd rs rt

/-- The instruction `subu`. -/
abbrev subu (rd rs rt : Reg) : Instr := arith .subu rd rs rt

/-- The instruction `slt`. -/
abbrev slt (rd rs rt : Reg) : Instr := arith .slt rd rs rt

/-- The instruction `sltu`. -/
abbrev sltu (rd rs rt : Reg) : Instr := arith .sltu rd rs rt

/-- The instruction `beq`. -/
abbrev beq (rs rt : Reg) (offset : Int16) : Instr := branch .eq rs rt offset

/-- The instruction `bne`. -/
abbrev bne (rs rt : Reg) (offset : Int16) : Instr := branch .ne rs rt offset

/-- The instruction `sll`. -/
abbrev sll (rd rt : Reg) (amount : UInt8) : Instr := shift .sll rd rt amount

/-- The instruction `srl`. -/
abbrev srl (rd rt : Reg) (amount : UInt8) : Instr := shift .srl rd rt amount

/-- The instruction `xori`. -/
abbrev xori (rt rs : Reg) (imm : UInt16) : Instr := bits .xori rt rs imm

/-- The instruction `ori`. -/
abbrev ori (rt rs : Reg) (imm : UInt16) : Instr := bits .ori rt rs imm

/-! ## Text -/

/-- The operands as they are written, in the order of the operation's slots. -/
def operands : Instr → List String
  | shift _ rd rt amount => [rd.text, rt.text, toString amount.toNat]
  | shiftBy _ a b c | arith _ a b c => [a.text, b.text, c.text]
  | jr rs => [rs.text]
  | jalr rd rs => [rd.text, rs.text]
  | syscall | halt | eret => []
  | mfs rt sel | mts rt sel => [rt.text, sel.text]
  | branchZero _ rs offset => [rs.text, toString offset.toInt]
  | jump _ index => [toString index.toNat]
  | branch _ a b v | signed _ a b v | lw a b v | sw a b v => [a.text, b.text, toString v.toInt]
  | bits _ rt rs imm => [rt.text, rs.text, toString imm.toNat]
  | lui rt imm => [rt.text, toString imm.toNat]

/-- An instruction as the assembler reads it. -/
def text (i : Instr) : String := Text.join " " (i.op.name :: i.operands)

/-- A painted instruction with up to three operands in blue. -/
def paintedOperands (name a b c : String) : String :=
  Text.Colour.red.start ++ Text.padRight 8 name ++ Text.Colour.blue.start ++ Text.padRight 4 a ++ " "
    ++ Text.padRight 4 b ++ " " ++ Text.padRight 4 c ++ Text.colourOff

/-- A painted instruction with up to two operands in blue and a number in yellow. -/
def paintedNumber (name a b number : String) : String :=
  Text.Colour.red.start ++ Text.padRight 8 name ++ Text.Colour.blue.start ++ Text.padRight 4 a ++ " "
    ++ Text.padRight 4 b ++ " " ++ Text.Colour.yellow.start ++ number ++ Text.colourOff

/-- An instruction in columns and colours.  Unsigned numbers are hexadecimal here. -/
def painted (i : Instr) : String :=
  let name := i.op.name
  match i with
  | shift _ rd rt amount => paintedNumber name rd.text rt.text (toString amount.toNat)
  | shiftBy _ a b c | arith _ a b c => paintedOperands name a.text b.text c.text
  | jr rs => paintedOperands name rs.text "" ""
  | jalr rd rs => paintedOperands name rd.text rs.text ""
  | syscall | halt | eret => paintedOperands name "" "" ""
  | mfs rt sel | mts rt sel => paintedOperands name rt.text sel.text ""
  | branchZero _ rs offset => paintedNumber name rs.text "" (toString offset.toInt)
  | jump _ index => paintedNumber name "" "" ("0x" ++ Text.hex 7 index.toNat)
  | branch _ a b v | signed _ a b v | lw a b v | sw a b v => paintedNumber name a.text b.text (toString v.toInt)
  | bits _ rt rs imm => paintedNumber name rt.text rs.text ("0x" ++ Text.hex 4 imm.toNat)
  | lui rt imm => paintedNumber name rt.text "" ("0x" ++ Text.hex 4 imm.toNat)

/-! ## Words -/

/-- Why a word is no instruction. -/
inductive DecodeError where
  | unknownWord (w : Word)
  | badSelector (w : Word)
  deriving DecidableEq, Repr

/-- The wording of a failure to read a word. -/
def DecodeError.message : DecodeError → String
  | unknownWord w => "Unknown instruction word: " ++ w.marked
  | badSelector w => "Unknown special register selector in " ++ w.marked

/-- The fields of an instruction. -/
def toFields (i : Instr) : Fields :=
  let opcode := i.op.opcode
  let sub := i.op.subCode
  match i with
  | shift _ rd rt amount => .r opcode 0 rt.toByte rd.toByte amount sub
  | shiftBy _ rd rt rs => .r opcode rs.toByte rt.toByte rd.toByte 0 sub
  | jr rs => .r opcode rs.toByte 0 0 0 sub
  | jalr rd rs => .r opcode rs.toByte 0 rd.toByte 0 sub
  | syscall | halt | eret => .r opcode 0 0 0 0 sub
  | arith _ rd rs rt => .r opcode rs.toByte rt.toByte rd.toByte 0 sub
  | mfs rt sel | mts rt sel => .r opcode 0 rt.toByte (UInt8.ofNat sel.num.val) 0 sub
  | branchZero .ltz rs offset | branchZero .gez rs offset => .i opcode rs.toByte sub offset.toUInt16
  | branchZero _ rs offset => .i opcode rs.toByte 0 offset.toUInt16
  | jump _ index => .j opcode index
  | branch _ rs rt offset => .i opcode rs.toByte rt.toByte offset.toUInt16
  | signed _ rt rs imm => .i opcode rs.toByte rt.toByte imm.toUInt16
  | bits _ rt rs imm => .i opcode rs.toByte rt.toByte imm
  | lui rt imm => .i opcode 0 rt.toByte imm
  | lw rt base offset | sw rt base offset => .i opcode base.toByte rt.toByte offset.toUInt16

/-- The instruction of an operation of the register layout. -/
def ofRegisters (w : Word) (op : Op) (rs rt rd : Reg) (amount : UInt8) : Except DecodeError Instr :=
  match op with
  | .shift k => .ok (shift k rd rt amount)
  | .shiftBy k => .ok (shiftBy k rd rt rs)
  | .jr => .ok (jr rs)
  | .jalr => .ok (jalr rd rs)
  | .syscall => .ok syscall
  | .halt => .ok halt
  | .arith k => .ok (arith k rd rs rt)
  | .eret => .ok eret
  | .mfs => match SReg.ofNat? rd.num.val with
    | some sel => .ok (mfs rt sel)
    | none => .error (.badSelector w)
  | .mts => match SReg.ofNat? rd.num.val with
    | some sel => .ok (mts rt sel)
    | none => .error (.badSelector w)
  | _ => .error (.unknownWord w)

/-- The instruction of an operation of the immediate layout. -/
def ofImmediate (w : Word) (op : Op) (rs rt : Reg) (imm : UInt16) : Except DecodeError Instr :=
  match op with
  | .branchZero test => .ok (branchZero test rs imm.toInt16)
  | .branch test => .ok (branch test rs rt imm.toInt16)
  | .signed k => .ok (signed k rt rs imm.toInt16)
  | .bits k => .ok (bits k rt rs imm)
  | .lui => .ok (lui rt imm)
  | .lw => .ok (lw rt rs imm.toInt16)
  | .sw => .ok (sw rt rs imm.toInt16)
  | _ => .error (.unknownWord w)

/-- The instruction that the fields hold.  The fields are looked at whole, so a number too large for its place
    names no operation; register fields keep their low five bits. -/
def ofFields (fields : Fields) : Except DecodeError Instr :=
  let w := fields.toWord
  match fields with
  | .r opcode rs rt rd amount funct =>
    match Op.ofCodes? opcode funct 0 with
    | some op => ofRegisters w op (Reg.ofBits rs.toNat) (Reg.ofBits rt.toNat) (Reg.ofBits rd.toNat) amount
    | none => .error (.unknownWord w)
  | .i opcode rs rt imm =>
    match Op.ofCodes? opcode 0 rt with
    | some op => ofImmediate w op (Reg.ofBits rs.toNat) (Reg.ofBits rt.toNat) imm
    | none => .error (.unknownWord w)
  | .j opcode index =>
    match Op.ofCodes? opcode 0 0 with
    | some (.jump link) => .ok (jump link index)
    | _ => .error (.unknownWord w)

/-- The word of an instruction. -/
def encode (i : Instr) : Word := i.toFields.toWord

/-- The instruction of a word. -/
def decode (w : Word) : Except DecodeError Instr := ofFields (Fields.ofWord w)

example : (addi .sp .sp (-8)).encode = 0x23BDFFF8 ∧ (addi .sp .sp (-8)).text = "addi sp sp -8" := by decide +kernel

example : decode 0x0C000005 = .ok (jump true 5) ∧ decode 1 = .error (.unknownWord 1) := ⟨rfl, rfl⟩

end Instr

end M32
