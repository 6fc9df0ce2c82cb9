/-
  The assembler, one line at a time.

  Instructions stand in slots in program order, four bytes apart.  A jump to a label that is not defined yet is
  pending: its slot waits in the label table, and the definition of the label aims it.  The instructions before the
  first pending one are final; `settled` counts them.
  1. `feed` takes a line.  A line that is refused changes nothing.
  2. `finish` gives all instructions, or the labels that were never defined.
  3. `assemble` does this for a text.
-/
import M32.Assembly.Label
import M32.Assembly.Statement
import M32.Text.Blank

namespace M32.Assembly

/-! ## Slots -/

/-- An instruction with its address and the line it comes from. -/
structure Placed where
  address : Word
  line : Nat
  instr : Instr
  deriving DecidableEq, Repr

/-- The word of a placed instruction. -/
def Placed.word (p : Placed) : Word := p.instr.encode

/-- A place in the program, and whether its jump still waits for a label. -/
structure Slot where
  placed : Placed
  pending : Bool
  deriving DecidableEq, Repr

/-- A slot whose jump is aimed at a word index. -/
def Slot.aim (s : Slot) (index : Word) : Slot :=
  { placed := { s.placed with instr := s.placed.instr.aim index }, pending := false }

/-! ## The assembler -/

/-- What an assembler knows between two lines. -/
structure Assembler where
  /-- The address of the next instruction. -/
  pc : Word := 0
  labels : LabelTable := {}
  /-- All instructions so far, in program order. -/
  slots : Array Slot := #[]
  /-- The number of instructions before the first pending one. -/
  settled : Nat := 0
  deriving DecidableEq, Repr

namespace Assembler

/-- The word index of an address, if a jump can name it. -/
def jumpIndex (address : Word) : Except Fault Word :=
  let index := address >>> 2
  if index.toNat < Instr.indexLimit then .ok index else .error (.unreachable address)

/-- Adds an instruction of a line at the end. -/
def push (a : Assembler) (line : Nat) (pending : Bool) (i : Instr) : Assembler :=
  { a with pc := a.pc + 4, slots := a.slots.push ⟨⟨a.pc, line, i⟩, pending⟩ }

/-- Aims the jumps in some slots. -/
def aimAll (slots : Array Slot) (index : Word) (waiting : List Nat) : Array Slot :=
  waiting.foldl (fun slots n => slots.modify n (·.aim index)) slots

/-- Takes a statement of a line. -/
def feedStatement (a : Assembler) (line : Nat) : Statement → Except Fault Assembler
  | .label name => do
    let (waiting, labels) ← a.labels.define name a.pc line
    let index ← jumpIndex a.pc
    return { a with labels, slots := aimAll a.slots index waiting }
  | .pseudo p =>
    match p.expand with
    | .ok instrs => .ok (instrs.foldl (fun a i => a.push line false i) a)
    | .error e => .error (.pseudo e)
  | .instr i => .ok (a.push line false i)
  | .jump link label =>
    match a.labels.reference label a.slots.size with
    | (some address, _) => (jumpIndex address).map fun index => a.push line false (.jump link index)
    | (none, labels) => .ok ({ a with labels }.push line true (.jump link 0))

/-- Counts on from `n` to the first pending slot. -/
def settledFrom (slots : Array Slot) (n : Nat) : Nat :=
  if h : n < slots.size then if slots[n].pending then n else settledFrom slots (n + 1) else n
termination_by slots.size - n

/-- Brings the count of final instructions up to date. -/
def settle (a : Assembler) : Assembler := { a with settled := settledFrom a.slots a.settled }

/-- Takes a line, numbered from 1. -/
def feed (a : Assembler) (line : Nat) (text : List Char) : Except Error Assembler :=
  let fed := do
    match ← Statement.read text with
    | none => return a
    | some statement => a.feedStatement line statement
  match fed with
  | .ok a => .ok a.settle
  | .error fault => .error ⟨some line, fault⟩

/-- The final instructions. -/
def emitted (a : Assembler) : List Placed := (a.slots.toList.take a.settled).map (·.placed)

/-- The whole program, once every label that is used is defined. -/
def finish (a : Assembler) : Except Error (List Placed) :=
  match a.labels.unresolved with
  | [] => .ok (a.slots.toList.map (·.placed))
  | names => .error ⟨none, .undefinedLabels names⟩

/-- Takes the lines of one text, the first of which has the number `line`. -/
def feedLines (a : Assembler) (line : Nat) : List (List Char) → Except Error Assembler
  | [] => .ok a
  | text :: rest => do (← a.feed line text).feedLines (line + 1) rest

end Assembler

/-- The program of a text. -/
def assemble (text : List Char) : Except Error (List Placed) := do
  (← Assembler.feedLines {} 1 (Text.lines text)).finish

end M32.Assembly
