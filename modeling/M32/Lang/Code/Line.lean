/-
  Lines of generated assembly.

  1. `Line` is a label, an instruction, a pseudo-instruction or a jump to a label.  `Line.size` is the number of
     instructions that it stands for.
  2. `codeSize` is the number of instructions of some lines.
  3. Branches name the number of instructions that they pass; those that do not fit their field are refused.
-/
import M32.Lang.Error

namespace M32.Lang

/-! ## Lines -/

/-- A line of generated assembly. -/
inductive Line where
  | label (name : String)
  | instr (i : Instr)
  | pseudo (p : Pseudo)
  | jump (mnemonic target : String)
  deriving DecidableEq, Repr

namespace Line

/-- A pseudo-instruction whose operands are permitted. -/
def ofPseudo (p : Pseudo) : Except Fault Line :=
  match p.fault? with
  | some e => .error (.pseudo e)
  | none => .ok (pseudo p)

/-- The number of instructions that a line stands for. -/
def size : Line → Nat
  | label _ => 0
  | instr _ | jump .. => 1
  | pseudo p => p.size

/-- A line without the blanks before it. -/
def text : Line → String
  | label name => name ++ ":"
  | instr i => i.text
  | pseudo p => p.text
  | jump mnemonic target => mnemonic ++ " " ++ target

/-- A line as it is written: all but labels stand to the right of the margin. -/
def render (l : Line) : String := if l.size = 0 then l.text else "    " ++ l.text

end Line

/-- The number of instructions of some lines. -/
def codeSize : List Line → Nat
  | [] => 0
  | l :: code => l.size + codeSize code

@[simp] theorem codeSize_nil : codeSize [] = 0 := rfl

@[simp] theorem codeSize_cons (l : Line) (code : List Line) : codeSize (l :: code) = l.size + codeSize code := rfl

@[simp] theorem codeSize_append (a b : List Line) : codeSize (a ++ b) = codeSize a + codeSize b := by
  induction a with
  | nil => exact (Nat.zero_add _).symm
  | cons l a ih => rw [List.cons_append, codeSize_cons, codeSize_cons, ih, Nat.add_assoc]

/-- Lines as assembly text. -/
def renderCode (code : List Line) : String := Text.join "\n" (code.map Line.render) ++ "\n"

/-! ## Branches -/

/-- The longest branch in either direction. -/
def branchLimit : Nat := 0x8000

/-- A branch over `skip` instructions if a register is zero. -/
def branchIfZero (cond : Reg) (skip : Nat) : Except Fault Instr :=
  if skip < branchLimit then .ok (.beq cond .zero (Int16.ofNat skip)) else .error (.branchTooFar skip)

/-- A jump over `skip` instructions. -/
def jumpForward (skip : Nat) : Except Fault Instr := branchIfZero .zero skip

/-- A jump back to the instruction `back` places before. -/
def jumpBack (back : Nat) : Except Fault Instr :=
  if back < branchLimit then .ok (.beq .zero .zero (-Int16.ofNat back)) else .error (.branchTooFar back)

end M32.Lang
