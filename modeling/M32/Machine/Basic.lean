/-
  The machine: registers, memory, and one instruction at a time.

  1. `State` is all that the machine knows.  Register 0 is never written, and memory is touched only at aligned
     addresses inside it.
  2. `exec` carries one instruction out.  Branch offsets count instructions from the branch itself.
  3. `step` fetches and executes.  A fetch is refused if it is unaligned or outside memory, and past the image it ends
     the program; only a data access can fail after the program counter has moved on.
  4. `run` steps until the machine stops or a budget is used up.
-/
import M32.Instr
import M32.Machine.Memory

namespace M32.Machine

/-! ## Why a machine stops -/

/-- A stop that the program asked for, or came to. -/
inductive Halt where
  /-- A system call, with the code in register 1. -/
  | signal (code : Word)
  /-- The instruction `halt`. -/
  | halted
  /-- The program counter left the image. -/
  | endOfProgram
  /-- The budget was used up. -/
  | stepLimit
  deriving DecidableEq, Repr

/-- A stop in words. -/
def Halt.text : Halt → String
  | signal code => "signal " ++ toString code.toNat
  | halted => "halted"
  | endOfProgram => "end of program"
  | stepLimit => "step limit reached"

/-- The exit status of a stop.  Signal 1 is success, any other its code, at least 1 and at most 255. -/
def Halt.exitCode : Halt → Nat
  | signal code => if code = 1 then 0 else if code = 0 then 1 else min 255 code.toNat
  | halted | endOfProgram | stepLimit => 0

/-- A fault that stops the machine. -/
inductive Trap where
  | unalignedFetch (pc : Word)
  | fetchOutOfBounds (pc : Word)
  | unalignedAccess (pc address : Word)
  | accessOutOfBounds (pc address : Word)
  | illegalInstruction (pc word : Word)
  deriving DecidableEq, Repr

/-- A fault in words. -/
def Trap.message : Trap → String
  | unalignedFetch pc => "Unaligned instruction fetch at " ++ pc.marked
  | fetchOutOfBounds pc => "Instruction fetch outside memory at " ++ pc.marked
  | unalignedAccess pc address => "Unaligned data access at " ++ address.marked ++ " (pc " ++ pc.marked ++ ")"
  | accessOutOfBounds pc address => "Data access outside memory at " ++ address.marked ++ " (pc " ++ pc.marked ++ ")"
  | illegalInstruction pc word => "Illegal instruction " ++ word.marked ++ " at " ++ pc.marked

/-! ## State -/

/-- All that the machine knows. -/
structure State where
  regs : Vector Word 32 := Vector.replicate 32 0
  sregs : Vector Word 8 := Vector.replicate 8 0
  pc : Word := 0
  memory : Memory
  /-- The first address after the image. -/
  imageEnd : Word := 0
  /-- The number of instructions executed.  It has no bound here; as a number of sixty-four bits it is the same up to 2^64 instructions. -/
  steps : Nat := 0

/-- The number of bytes that 32 bits can address. -/
def fullSize : Nat := 0x100000000

namespace State

/-- A machine with memory of a size, all zero. -/
def ofSize (size : Nat) : State := { memory := { size } }

/-- What a register holds. -/
def reg (s : State) (r : Reg) : Word := s.regs.get r.num

/-- The state with a register set.  Register 0 stays zero. -/
def setReg (s : State) (r : Reg) (w : Word) : State :=
  if r = .zero then s else { s with regs := s.regs.set r.num.val w r.num_lt }

/-- What a special register holds. -/
def sreg (s : State) (r : SReg) : Word := s.sregs.get r.num

/-- The state with a special register set. -/
def setSReg (s : State) (r : SReg) (w : Word) : State := { s with sregs := s.sregs.set r.num.val w r.num.isLt }

/-- The state with another program counter. -/
def jumpTo (s : State) (pc : Word) : State := { s with pc }

/-! ### Memory -/

/-- Why a word at an address cannot be read or written by the instruction at `pc`. -/
def accessFault? (s : State) (pc address : Word) : Option Trap :=
  if address % 4 ≠ 0 then some (.unalignedAccess pc address)
  else if s.memory.contains address then none
  else some (.accessOutOfBounds pc address)

/-- The word at an aligned address inside memory. -/
def peek? (s : State) (address : Word) : Option Word :=
  if address % 4 = 0 && s.memory.contains address then some (s.memory.read address) else none

/-- The state with a word of memory set. -/
def store (s : State) (address w : Word) : State := { s with memory := s.memory.write address w }

/-- Sets a word from outside. -/
def poke (s : State) (address w : Word) : Except Trap State :=
  match s.accessFault? s.pc address with
  | some trap => .error trap
  | none => .ok (s.store address w)

/-- Stores words one after another from an address. -/
def storeAll (s : State) (address : Word) : List Word → State
  | [] => s
  | w :: ws => (s.store address w).storeAll (address + 4) ws

/-- Places an image at address 0, or gives its length if memory is too small for it. -/
def load (s : State) (words : List Word) : Except Nat State :=
  let size := 4 * words.length
  if s.memory.size < size || fullSize ≤ size then .error words.length
  else .ok { s.storeAll 0 words with imageEnd := UInt32.ofNat size }

end State

/-- The wording of an image that is too large. -/
def imageTooLarge (words : Nat) : String := "Image of " ++ toString words ++ " words does not fit in memory"

/-! ## Instructions -/

/-- The address that a branch at `pc` goes to. -/
def branchTarget (pc : Word) (offset : Int16) : Word := pc + Word.ofImm offset * 4

namespace State

/-- Carries out an instruction that was fetched at `pc`.  The program counter is already past it. -/
def exec (s : State) (pc : Word) (i : Instr) : State × Except Trap (Option Halt) :=
  match i with
  | .shift op rd rt amount => (s.setReg rd (op.apply (s.reg rt) amount.toUInt32), .ok none)
  | .shiftBy op rd rt rs => (s.setReg rd (op.apply (s.reg rt) (s.reg rs)), .ok none)
  | .jr rs => (s.jumpTo (s.reg rs), .ok none)
  | .jalr rd rs =>
    let target := s.reg rs
    ((s.setReg rd (pc + 4)).jumpTo target, .ok none)
  | .syscall => (s, .ok (some (.signal (s.reg .sig))))
  | .halt => (s, .ok (some .halted))
  | .arith op rd rs rt => (s.setReg rd (op.apply (s.reg rs) (s.reg rt)), .ok none)
  | .mfs rt sel => (s.setReg rt (s.sreg sel), .ok none)
  | .mts rt sel => (s.setSReg sel (s.reg rt), .ok none)
  | .eret => (s.jumpTo (s.sreg .epc), .ok none)
  | .branchZero test rs offset =>
    (if test.holds (s.reg rs) then s.jumpTo (branchTarget pc offset) else s, .ok none)
  | .branch test rs rt offset =>
    (if test.holds (s.reg rs) (s.reg rt) then s.jumpTo (branchTarget pc offset) else s, .ok none)
  | .jump false index => (s.jumpTo (index <<< 2), .ok none)
  | .jump true index => ((s.setReg .ra (pc + 4)).jumpTo (index <<< 2), .ok none)
  | .signed op rt rs imm => (s.setReg rt (op.arith.apply (s.reg rs) (Word.ofImm imm)), .ok none)
  | .bits op rt rs imm => (s.setReg rt (op.arith.apply (s.reg rs) imm.toUInt32), .ok none)
  | .lui rt imm => (s.setReg rt (imm.toUInt32 <<< 16), .ok none)
  | .lw rt base offset =>
    let address := s.reg base + Word.ofImm offset
    match s.accessFault? pc address with
    | some trap => (s, .error trap)
    | none => (s.setReg rt (s.memory.read address), .ok none)
  | .sw rt base offset =>
    let address := s.reg base + Word.ofImm offset
    match s.accessFault? pc address with
    | some trap => (s, .error trap)
    | none => (s.store address (s.reg rt), .ok none)

end State

/-! ## Steps and runs -/

/-- What a step did. -/
structure Step where
  /-- Where it fetched. -/
  address : Word
  /-- The instruction it carried out, if any. -/
  instr : Option Instr
  halt : Option Halt
  deriving DecidableEq, Repr

namespace State

/-- Fetches an instruction and carries it out. -/
def step (s : State) : State × Except Trap Step :=
  let pc := s.pc
  if pc % 4 ≠ 0 then (s, .error (.unalignedFetch pc))
  else if !s.memory.contains pc then (s, .error (.fetchOutOfBounds pc))
  else if s.imageEnd ≤ pc then (s, .ok ⟨pc, none, some .endOfProgram⟩)
  else
    let word := s.memory.read pc
    match Instr.decode word with
    | .error _ => (s, .error (.illegalInstruction pc word))
    | .ok i =>
      match { s with pc := pc + 4, steps := s.steps + 1 }.exec pc i with
      | (s, .ok halt) => (s, .ok ⟨pc, some i, halt⟩)
      | (s, .error trap) => (s, .error trap)

/-- Steps until the machine stops or the budget is used up.  `observe` sees every step that does not fail, with its
    number and the state after it. -/
def runWith {m : Type → Type} [Monad m] (observe : Nat → Step → State → m PUnit) :
    (budget time : Nat) → State → m (State × Except Trap Halt)
  | 0, _, s => pure (s, .ok .stepLimit)
  | budget + 1, time, s =>
    match s.step with
    | (s, .error trap) => pure (s, .error trap)
    | (s, .ok step) => do
      observe time step s
      match step.halt with
      | some halt => pure (s, .ok halt)
      | none => runWith observe budget (time + 1) s

/-- Steps until the machine stops or the budget is used up. -/
def run (budget : Nat) (s : State) : State × Except Trap Halt :=
  Id.run (runWith (fun _ _ _ => pure ⟨⟩) budget 0 s)

end State

end M32.Machine
