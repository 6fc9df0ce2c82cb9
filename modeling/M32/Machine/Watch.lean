/-
  Watching a run: dumps of the state and traces of instructions.

  1. `registerTable` is the state of the machine in a table of four columns, register numbers running down.
  2. A `Watch` shows the table after every step, or, with chosen words of memory, after the instructions at its
     watch points.
  3. A trace shows each instruction that was carried out.
  A `View` is what a run shows: `View.opening` before the first step and `View.afterStep` after each.
-/
import M32.Machine.Basic
import M32.Settings
import M32.Text.Quoted

namespace M32.Machine

/-! ## Tables -/

/-- The rule above and below a table. -/
def tableRule : String := " +" ++ String.join (List.replicate 4 (Text.rule 19 '-' ++ "+"))

/-- The cell of a register. -/
def State.registerCell (s : State) (r : Reg) : String :=
  " " ++ Text.padLeft 4 r.text ++ ": " ++ (s.reg r).text ++ "    "

/-- The row of the registers whose numbers are `row` plus a multiple of eight. -/
def State.registerRow (s : State) (row : Nat) : String :=
  " |" ++ Text.join "|" ((List.range 4).map fun column => s.registerCell (Reg.ofBits (row + 8 * column))) ++ "|"

/-- The program counter, the step count and all registers. -/
def State.registerTable (s : State) : List String :=
  let empty := Text.rule 19 ' '
  let first := " | pc  " ++ s.pc.text ++ "      | steps " ++ Text.padRight 11 (toString s.steps) ++ " |" ++ empty ++ "|"
    ++ empty ++ "|"
  [tableRule, first] ++ (List.range 8).map s.registerRow ++ [tableRule]

/-- The row of a word of memory. -/
def State.wordRow (s : State) (address : Word) : String :=
  match s.peek? address with
  | some w => " | " ++ address.text ++ " : " ++ w.text ++ " (" ++ toString w.toInt ++ ")"
  | none => " | " ++ address.text ++ " : --------"

/-- The rows of some words of memory, with a rule below if there are any. -/
def State.wordRows (s : State) (addresses : List Word) : List String :=
  if addresses.isEmpty then [] else addresses.map s.wordRow ++ [tableRule]

/-- The addresses of some words from the stack pointer upward. -/
def State.stackAddresses (s : State) (count : Nat) : List Word :=
  (List.range (count % fullSize)).map fun i => s.reg .sp + 4 * UInt32.ofNat i

/-! ## Watches and traces -/

/-- When to show the state of the machine. -/
structure Watch where
  /-- The file that the watch points come from. -/
  file : Option String := none
  /-- Whether to show the registers after every step. -/
  all : Bool := false
  points : List (Word × WatchPoint) := []

/-- The lines of a watch before the first step. -/
def Watch.opening (w : Watch) : List String :=
  (if w.all then [" * Dump all"] else []) ++
    match w.file with
    | some name => [" * Dump[" ++ toString w.points.length ++ "] " ++ Text.quotedString name]
    | none => []

/-- The lines of a watch after a step. -/
def Watch.afterStep (w : Watch) (time : Nat) (step : Step) (s : State) : List String :=
  match w.points.lookup step.address with
  | some p =>
    (" [" ++ Text.padLeft 8 (toString time) ++ "] after " ++ step.address.marked) :: s.registerTable
      ++ s.wordRows (s.stackAddresses p.stack) ++ s.wordRows p.words
  | none => if w.all then s.registerTable else []

/-- The line of a trace after a step. -/
def traceStep (time : Nat) (step : Step) : List String :=
  match step.instr with
  | some i =>
    [Text.faint ("[" ++ Text.padLeft 8 (toString time) ++ "]") ++ " " ++ Text.coloured .cyan step.address.text ++ " "
      ++ i.painted]
  | none => []

/-- What a run shows. -/
structure View where
  watch : Option Watch := none
  trace : Bool := false

/-- What a run shows before the first step. -/
def View.opening (v : View) : List String :=
  (match v.watch with
    | some w => w.opening
    | none => []) ++ if v.trace then [" * Trace"] else []

/-- What a run shows after a step. -/
def View.afterStep (v : View) (time : Nat) (step : Step) (s : State) : List String :=
  (match v.watch with
    | some w => w.afterStep time step s
    | none => []) ++ if v.trace then traceStep time step else []

/-- A run that shows its lines. -/
def State.runShowing {m : Type → Type} [Monad m] (v : View) (print : String → m PUnit) (budget : Nat) (s : State) :
    m (State × Except Trap Halt) := do
  v.opening.forM print
  s.runWith (fun time step s => (v.afterStep time step s).forM print) budget 0

end M32.Machine
