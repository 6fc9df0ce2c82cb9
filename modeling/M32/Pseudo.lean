/-
  Pseudo-instructions: short names for fixed sequences of instructions.

  1. `Pseudo` has its operands in the order in which they are written, `PseudoKind` is the name alone.
  2. `text` is what the assembler reads, after the mark `macro: `.
  3. `fault?` refuses operands that the sequence would spoil: registers it uses itself, one register in two roles,
     the zero register where it writes.
  4. `instrs` is the sequence and `expand` the sequence of permitted operands.  Its length hangs on the kind alone
     (`length_instrs`), so sizes are known before operands are: that of a kind is counted on one of its members.
-/
import M32.Instr
import M32.Scalar

namespace M32

/-! ## Kinds -/

/-- The name of a pseudo-instruction. -/
inductive PseudoKind where
  | zero | mul | divu | divt | gpr | ssave | srestore | saveUser | restoreUser
  deriving DecidableEq, Repr

namespace PseudoKind

/-- All kinds. -/
def all : List PseudoKind := [zero, mul, divu, divt, gpr, ssave, srestore, saveUser, restoreUser]

/-- How a kind is written. -/
def name : PseudoKind → String
  | zero => "zero"
  | mul => "mul"
  | divu => "divu"
  | divt => "divt"
  | gpr => "gpr"
  | ssave => "ssave"
  | srestore => "srestore"
  | saveUser => "save-user"
  | restoreUser => "restore-user"

/-- The kind that a name means, in any ASCII case. -/
def ofName? (cs : List Char) : Option PseudoKind :=
  let lower := String.ofList (cs.map Char.toLower)
  all.find? (·.name = lower)

/-- The number of operands between the parentheses. -/
def arity : PseudoKind → Nat
  | zero => 2
  | mul | divu | divt => 3
  | gpr | ssave | srestore => 1
  | saveUser | restoreUser => 0

end PseudoKind

/-! ## Pseudo-instructions -/

/-- A pseudo-instruction with its operands. -/
inductive Pseudo where
  /-- Store `count` zero words from `base` upward. -/
  | zero (base count : Reg)
  /-- The low word of a product. -/
  | mul (dst a b : Reg)
  /-- A quotient of unsigned words. -/
  | divu (dst a b : Reg)
  /-- A quotient of signed words, toward zero. -/
  | divt (dst a b : Reg)
  /-- Load a literal. -/
  | gpr (reg : Reg) (value : Word) (ty : Scalar)
  /-- Keep a register in the scratch word. -/
  | ssave (r : Reg)
  /-- Take a register back from the scratch word. -/
  | srestore (r : Reg)
  /-- Keep the registers of a program in its control block. -/
  | saveUser
  /-- Take the registers of a program back from its control block. -/
  | restoreUser
  deriving DecidableEq, Repr

/-- Why a pseudo-instruction is refused. -/
inductive PseudoError where
  | malformed (text : String)
  | unknown (name : String)
  | operandCount (name : String) (expected found : Nat)
  | badOperand (text what : String)
  | scratchOperand (name : String) (r : Reg)
  | sameOperand (name : String) (r : Reg)
  | zeroOperand (name : String) (r : Reg)
  deriving DecidableEq, Repr

/-- The wording of a refusal. -/
def PseudoError.message : PseudoError → String
  | malformed text => "Malformed macro line: `" ++ text ++ "`"
  | unknown name => "Unknown macro: `" ++ name ++ "`"
  | operandCount name expected found =>
    "Macro `" ++ name ++ "` takes " ++ toString expected ++ " argument(s), found " ++ toString found
  | badOperand text what => "Cannot parse `" ++ text ++ "` as " ++ what
  | scratchOperand name r => "Macro `" ++ name ++ "` cannot use scratch register " ++ r.text ++ " as an argument"
  | sameOperand name r => "Macro `" ++ name ++ "` needs distinct operand registers, got " ++ r.text ++ " twice"
  | zeroOperand name r => "Macro `" ++ name ++ "` overwrites its operands, " ++ r.text ++ " is read-only"

namespace Pseudo

/-- The kind of a pseudo-instruction. -/
def kind : Pseudo → PseudoKind
  | zero .. => .zero
  | mul .. => .mul
  | divu .. => .divu
  | divt .. => .divt
  | gpr .. => .gpr
  | ssave .. => .ssave
  | srestore .. => .srestore
  | saveUser => .saveUser
  | restoreUser => .restoreUser

/-- The mark before a pseudo-instruction. -/
def mark : String := "macro:"

/-- A pseudo-instruction without its mark. -/
def body (p : Pseudo) : String :=
  let name := p.kind.name
  match p with
  | zero base count => name ++ "(" ++ base.text ++ ", " ++ count.text ++ ")"
  | mul dst a b | divu dst a b | divt dst a b => name ++ "(" ++ dst.text ++ ", " ++ a.text ++ ", " ++ b.text ++ ")"
  | gpr reg value ty => name ++ "(" ++ reg.text ++ ") = enc(" ++ ty.render value ++ ", " ++ ty.name ++ ")"
  | ssave r | srestore r => name ++ "(" ++ r.text ++ ")"
  | saveUser | restoreUser => name

/-- A pseudo-instruction as the assembler reads it. -/
def text (p : Pseudo) : String := mark ++ " " ++ p.body

/-! ## Permitted operands -/

/-- The first of some registers that a sequence uses itself. -/
def scratchFault? (name : String) (rs : List Reg) : Option PseudoError :=
  (rs.find? Reg.isScratch).map (.scratchOperand name)

/-- Two roles of one register. -/
def sameFault? (name : String) (a b : Reg) : Option PseudoError :=
  if a = b then some (.sameOperand name a) else none

/-- The zero register among registers that are written. -/
def zeroFault? (name : String) (rs : List Reg) : Option PseudoError :=
  (rs.find? (· = .zero)).map (.zeroOperand name)

/-- The first reason to refuse the operands. -/
def fault? (p : Pseudo) : Option PseudoError :=
  let name := p.kind.name
  match p with
  | zero base count => (sameFault? name base count).or (zeroFault? name [base, count])
  | mul dst a b => ((scratchFault? name [dst, a, b]).or (sameFault? name a b)).or (zeroFault? name [a])
  | divu dst a b | divt dst a b =>
    ((scratchFault? name [dst, a, b]).or (sameFault? name a b)).or (zeroFault? name [a, b])
  | gpr .. | ssave _ | srestore _ | saveUser | restoreUser => none

/-! ## Sequences -/

open Instr (addi add addu subu slt sltu beq bne sll srl)

/-- The offset of the scratch word from register 0: the last word of memory. -/
def scratchOffset : Int16 := -4

/-- The offset of a general register in a control block. -/
def regSlot (r : Reg) : Int16 := Int16.ofNat (4 * r.num.val)

/-- The offset of a saved special register in a control block. -/
def sregSlot (i : Nat) : Int16 := Int16.ofNat (128 + 4 * i)

/-- The registers that a control block keeps besides the one that holds its address. -/
def spilled : List Reg := Reg.all.filter fun r => r ≠ .zero && r ≠ .k0

/-- The saved special registers with their slots. -/
def savedSlots : List (SReg × Int16) := SReg.saved.mapIdx fun i s => (s, sregSlot i)

/-- The instructions of an unsigned division: scale the divisor up while it fits, then subtract and halve.
    `k0` holds the scaled divisor, `k1` the bit of the quotient, `k2` comparisons, `b` the quotient. -/
def divuInstrs (dst a b : Reg) : List Instr :=
  [add .k0 b .zero, addi .k1 .zero 1, add b .zero .zero, bne .k0 .zero 3, addi dst .zero (-1), beq .zero .zero 16,
    sltu .k2 a .k0, bne .k2 .zero 6, slt .k2 .k0 .zero, bne .k2 .zero 4, sll .k0 .k0 1, sll .k1 .k1 1,
    beq .zero .zero (-6),
    sltu .k2 a .k0, bne .k2 .zero 3, subu a a .k0, .arith .or b b .k1, srl .k0 .k0 1, srl .k1 .k1 1,
    bne .k1 .zero (-6), add dst b .zero]

/-- The instructions that a pseudo-instruction stands for. -/
def instrs : Pseudo → List Instr
  | zero base count => [.sw .zero base 0, addi base base 4, addi count count (-1), bne count .zero (-3)]
  -- `k0` is the mask, `k1` the sum and `k2` the tested bit
  | mul dst a b =>
    [add .k1 .zero .zero, addi .k0 .zero 1, .arith .and .k2 b .k0, beq .k2 .zero 2, addu .k1 .k1 a, sll a a 1,
      sll .k0 .k0 1, beq .k0 .zero 2, beq .zero .zero (-6), add dst .k1 .zero]
  | divu dst a b => divuInstrs dst a b
  -- `k3` keeps the sign of the quotient across the unsigned division
  | divt dst a b =>
    [bne b .zero 3, addi dst .zero (-1), beq .zero .zero 33, .arith .xor .k3 a b, slt .k2 a .zero, beq .k2 .zero 2,
      subu a .zero a, slt .k2 b .zero, beq .k2 .zero 2, subu b .zero b]
    ++ divuInstrs dst a b
    ++ [slt .k3 .k3 .zero, beq .k3 .zero 3, .arith .nor dst dst .zero, addi dst dst 1]
  | gpr reg value _ => [.lui reg (value >>> 16).toUInt16, .ori reg reg value.toUInt16]
  | ssave r => [.sw r .zero scratchOffset]
  | srestore r => [.lw r .zero scratchOffset]
  | saveUser =>
    [.sw .k0 .zero scratchOffset, .mfs .k0 .pcb]
    ++ spilled.map (fun r => .sw r .k0 (regSlot r))
    ++ [.lw .k1 .zero scratchOffset, .sw .k1 .k0 (regSlot .k0)]
    ++ savedSlots.flatMap (fun (s, slot) => [.mfs .k1 s, .sw .k1 .k0 slot])
  | restoreUser =>
    .mfs .k0 .pcb :: savedSlots.flatMap (fun (s, slot) => [.lw .k1 .k0 slot, .mts .k1 s])
    ++ [.lw .k1 .k0 (regSlot .k0), .sw .k1 .zero scratchOffset]
    ++ spilled.map (fun r => .lw r .k0 (regSlot r))
    ++ [.lw .k0 .zero scratchOffset]

end Pseudo

/-! ## Sizes -/

/-- A pseudo-instruction of a kind, with operands of no special meaning. -/
def PseudoKind.canonical (k : PseudoKind) : Pseudo :=
  let dst := Reg.ofBits 1
  let a := Reg.ofBits 2
  let b := Reg.ofBits 3
  match k with
  | zero => .zero a b
  | mul => .mul dst a b
  | divu => .divu dst a b
  | divt => .divt dst a b
  | gpr => .gpr dst 0 .int
  | ssave => .ssave dst
  | srestore => .srestore dst
  | saveUser => .saveUser
  | restoreUser => .restoreUser

/-- The number of instructions that a kind stands for. -/
def PseudoKind.size (k : PseudoKind) : Nat := k.canonical.instrs.length

namespace Pseudo

/-- The number of instructions that a pseudo-instruction stands for. -/
def size (p : Pseudo) : Nat := p.kind.size

/-- Operands do not matter for the number of instructions. -/
theorem length_instrs (p : Pseudo) : p.instrs.length = p.size := by cases p <;> rfl

/-- The instructions of a pseudo-instruction whose operands are permitted. -/
def expand (p : Pseudo) : Except PseudoError (List Instr) :=
  match p.fault? with
  | some e => .error e
  | none => .ok p.instrs

end Pseudo

end M32
