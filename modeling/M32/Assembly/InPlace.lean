/-
  The assembler as it works on its state.

  A line changes the state step by step.  One that is refused is left where it is refused, and what was done before stays
  done; `Assembler.feed` is what becomes of a line as a whole.
  1. `entry` finds a label in the table, or gives it an entry.  `define` and `reference` go on from there.
  2. `feedStatement` carries a statement out, and `feed` takes a line.
-/
import M32.Assembly.Assembler

namespace M32.Assembly

/-- What is done to a state and may fail.  The state stays as it is at the failure. -/
abbrev InPlace (ε σ α : Type) := ExceptT ε (StateM σ) α

namespace InPlace

/-- What comes of it in a state, and the state afterwards. -/
def on {ε σ α : Type} (x : InPlace ε σ α) (s : σ) : Except ε α × σ := StateT.run (ExceptT.run x) s

/-! ## The table of labels -/

/-- What is known of a name.  It has an entry from then on. -/
def entry (name : String) : StateM LabelTable Binding := do
  match (← get).find? name with
  | some b => return b
  | none =>
    modify (·.set name (.waiting []))
    return .waiting []

/-- Binds a label to an address.  Gives the slots that waited for it. -/
def define (name : String) (address : Word) (line : Nat) : InPlace Fault LabelTable (List Nat) := do
  match ← entry name with
  | .bound _ first => throw (.redefinedLabel name first)
  | .waiting slots =>
    modify (·.set name (.bound address line))
    return slots

/-- Looks a label up for a jump in `slot`.  Without an address the slot waits. -/
def reference (name : String) (slot : Nat) : InPlace Fault LabelTable (Option Word) := do
  match ← entry name with
  | .bound address _ => return some address
  | .waiting slots =>
    modify (·.set name (.waiting (slots ++ [slot])))
    return none

/-! ## The assembler -/

/-- Works on the table of labels alone. -/
def onLabels {α : Type} (x : InPlace Fault LabelTable α) : InPlace Fault Assembler α :=
  ExceptT.mk fun a => let (result, labels) := x.on a.labels; (result, { a with labels })

/-- Adds instructions of a line at the end, one after another. -/
def pushAll (line : Nat) (instrs : List Instr) : InPlace Fault Assembler Unit :=
  instrs.forM fun i => modify (·.push line false i)

/-- Aims the jumps in some slots, one after another. -/
def aimAll (index : Word) (waiting : List Nat) : InPlace Fault Assembler Unit :=
  waiting.forM fun n => modify fun a => { a with slots := a.slots.modify n (·.aim index) }

/-- Takes a statement of a line.  A label is bound before its address is looked at. -/
def feedStatement (line : Nat) : Statement → InPlace Fault Assembler Unit
  | .label name => do
    let waiting ← onLabels (define name (← get).pc line)
    aimAll (← Assembler.jumpIndex (← get).pc) waiting
  | .pseudo p =>
    match p.expand with
    | .ok instrs => pushAll line instrs
    | .error e => throw (.pseudo e)
  | .instr i => modify (·.push line false i)
  | .jump link label => do
    match ← onLabels (reference label (← get).slots.size) with
    | some address =>
      let index ← Assembler.jumpIndex address
      modify (·.push line false (.jump link index))
    | none => modify (·.push line true (.jump link 0))

/-- Takes a line, numbered from 1. -/
def feed (line : Nat) (text : List Char) : InPlace Error Assembler Unit := do
  let fed : InPlace Fault Assembler Unit := do
    match ← Statement.read text with
    | none => return
    | some statement => feedStatement line statement
  fed.adapt fun fault => ⟨some line, fault⟩
  modify Assembler.settle

end InPlace

end M32.Assembly
