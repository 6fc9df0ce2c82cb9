/-
  Lines of assembly text.

  1. `Label.isName` says which names a label may have.
  2. `Operand` reads the operands of an instruction slot by slot.  What is no number at all is a bad operand, a number
     that its field cannot hold is out of range.
  3. `Statement.read` reads a line: nothing, a label, a pseudo-instruction, an instruction, or a jump to
     a label whose index is filled in later.
-/
import M32.Assembly.Error
import M32.Pseudo.Reader

namespace M32.Assembly

/-! ## Labels -/

/-- Characters that a label may start with. -/
def Label.isStart (c : Char) : Bool := c.isAlpha || c == '_' || c == '.'

/-- Characters of which a label may consist. -/
def Label.isPart (c : Char) : Bool := c.isAlphanum || c == '_' || c == '.'

/-- Whether a label may have this name: ASCII letters, digits, underscores and dots, no digit at the start. -/
def Label.isName : List Char → Bool
  | [] => false
  | c :: cs => isStart c && cs.all isPart

/-! ## Operands -/

namespace Operand

/-- An integer operand. -/
def integer (slot : Op.Slot) (cs : List Char) : Except Fault Int :=
  match Literal.read? cs with
  | some v => .ok v
  | none => .error (.badOperand (String.ofList cs) slot)

/-- An integer operand that a field of so many bits holds without a sign. -/
def unsigned (bits : Nat) (slot : Op.Slot) (cs : List Char) : Except Fault Nat :=
  match integer slot cs with
  | .ok v => if fitsUnsigned bits v then .ok v.toNat else .error (.outOfRange (String.ofList cs) slot)
  | .error e => .error e

/-- An integer operand that a field of sixteen bits holds with a sign. -/
def signed (slot : Op.Slot) (cs : List Char) : Except Fault Int16 :=
  match integer slot cs with
  | .ok v => if fitsSigned 16 v then .ok (Int16.ofInt v) else .error (.outOfRange (String.ofList cs) slot)
  | .error e => .error e

/-- A register operand: its name or number, or any integer literal below 32. -/
def reg (slot : Op.Slot) (cs : List Char) : Except Fault Reg :=
  match Reg.read? cs with
  | some r => .ok r
  | none => (unsigned 5 slot cs).map Reg.ofBits

/-- A shift amount. -/
def amount (cs : List Char) : Except Fault UInt8 := (unsigned 5 .amount cs).map UInt8.ofNat

/-- An unsigned immediate. -/
def imm (cs : List Char) : Except Fault UInt16 := (unsigned 16 .unsigned cs).map UInt16.ofNat

/-- The index of a jump. -/
def index (cs : List Char) : Except Fault Word := (unsigned 26 .index cs).map UInt32.ofNat

/-- A special register. -/
def sel (cs : List Char) : Except Fault SReg :=
  match SReg.read? cs with
  | some s => .ok s
  | none => .error (.badOperand (String.ofList cs) .selector)

end Operand

/-! ## Statements -/

/-- A line of assembly text that is neither blank nor a comment. -/
inductive Statement where
  | label (name : String)
  | pseudo (p : Pseudo)
  | instr (i : Instr)
  | jump (link : Bool) (label : String)
  deriving DecidableEq, Repr

namespace Statement

open Operand

/-- A jump to an index or to a label.  A text that is an integer literal is never a label. -/
def readJump (link : Bool) (cs : List Char) : Except Fault Statement :=
  match Literal.read? cs with
  | some _ => (index cs).map fun i => .instr (.jump link i)
  | none =>
    if Label.isName cs then .ok (.jump link (String.ofList cs))
    else .error (.badOperand (String.ofList cs) .index)

/-- A statement of an operation with its operands.  They are read from left to right. -/
def readOperands (op : Op) (args : List (List Char)) : Except Fault Statement := do
  match op, args with
  | .shift k, [a, b, c] => return .instr (.shift k (← reg .rd a) (← reg .rt b) (← amount c))
  | .shiftBy k, [a, b, c] => return .instr (.shiftBy k (← reg .rd a) (← reg .rt b) (← reg .rs c))
  | .jr, [a] => return .instr (.jr (← reg .rs a))
  | .jalr, [a, b] => return .instr (.jalr (← reg .rd a) (← reg .rs b))
  | .syscall, [] => return .instr .syscall
  | .halt, [] => return .instr .halt
  | .arith k, [a, b, c] => return .instr (.arith k (← reg .rd a) (← reg .rs b) (← reg .rt c))
  | .mfs, [a, b] => return .instr (.mfs (← reg .rt a) (← sel b))
  | .mts, [a, b] => return .instr (.mts (← reg .rt a) (← sel b))
  | .eret, [] => return .instr .eret
  | .branchZero k, [a, b] => return .instr (.branchZero k (← reg .rs a) (← signed .signed b))
  | .jump link, [a] => readJump link a
  | .branch k, [a, b, c] => return .instr (.branch k (← reg .rs a) (← reg .rt b) (← signed .signed c))
  | .signed k, [a, b, c] => return .instr (.signed k (← reg .rt a) (← reg .rs b) (← signed .signed c))
  | .bits k, [a, b, c] => return .instr (.bits k (← reg .rt a) (← reg .rs b) (← imm c))
  | .lui, [a, b] => return .instr (.lui (← reg .rt a) (← imm b))
  | .lw, [a, b, c] => return .instr (.lw (← reg .rt a) (← reg .rs b) (← signed .signed c))
  | .sw, [a, b, c] => return .instr (.sw (← reg .rt a) (← reg .rs b) (← signed .signed c))
  | op, args => .error (.operandCount op args.length)

/-- A statement in words, the first of which names the operation. -/
def readWords : List (List Char) → Except Fault Statement
  | [] => .error (.unknownOperation "")
  | name :: args =>
    match Op.ofName? name with
    | some op => readOperands op args
    | none => .error (.unknownOperation (String.ofList name))

/-- The name of a label that stands alone in a line, if the line has the form of one. -/
def labelForm? (cs : List Char) : Option (List Char) :=
  match Text.words cs with
  | [w] => Text.dropEnd? ':' w
  | _ => none

/-- Reads a line.  Blank lines and lines that start with `#` hold no statement. -/
def read (line : List Char) : Except Fault (Option Statement) :=
  let cs := Text.trim line
  if cs.isEmpty || cs.head? = some '#' then .ok none
  else match Text.dropPrefix? Pseudo.mark.toList cs with
    | some body => match Pseudo.read body with
      | .ok p => .ok (some (.pseudo p))
      | .error e => .error (.pseudo e)
    | none => match labelForm? cs with
      | some name =>
        if Label.isName name then .ok (some (.label (String.ofList name)))
        else .error (.invalidLabel (String.ofList name))
      | none => (readWords (Text.words cs)).map some

example : read "  loop: ".toList = .ok (some (.label "loop")) := rfl

example : read "JAL _x".toList = .ok (some (.jump true "_x")) ∧ read "j _1".toList = .ok (some (.instr (.jump false 1))) :=
  ⟨rfl, rfl⟩

example : read "add 1 2 32".toList = .error (.outOfRange "32" .rt) ∧ read "# add".toList = .ok none := ⟨rfl, rfl⟩

end Statement

end M32.Assembly
