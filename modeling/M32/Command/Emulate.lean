/-
  The command of the machine.

  It loads an image, runs it and says how the run ended.  A settings file may set the size of memory and the step
  budget, and a file of watch points what the run shows.
-/
import M32.Assembly.Image
import M32.Command.Arguments
import M32.Command.Console
import M32.Literal
import M32.Machine.Watch
import M32.Text.Utf8

namespace M32.Command.Emulate

open M32.Machine (Halt State View Watch)

/-! ## Arguments -/

/-- The options of the command. -/
def specs : List OptionSpec :=
  [⟨"text", none, false⟩, ⟨"tmax", some 't', true⟩, ⟨"dump-cfg", some 'd', true⟩, ⟨"dump-all", some 'a', false⟩,
    ⟨"trace", none, false⟩, ⟨"config", some 'c', true⟩, ⟨"verbose", some 'v', false⟩]

/-- The image. -/
def input (a : Arguments) : String := a.inputs.headD "main.bin"

/-- A number of 64 bits, with a plus sign or without. -/
def count? (text : String) : Option Nat :=
  let digits := match text.toList with
    | '+' :: cs => cs
    | cs => cs
  (digitsValue? 10 digits).filter (· < 0x10000000000000000)

/-- The step budget that the arguments set, if they set one; fails if it is no number. -/
def budget? (a : Arguments) : Option (Option Nat) :=
  match a.value? "tmax" with
  | none => some none
  | some text => (count? text).map some

/-! ## Files -/

variable {m : Type → Type} [Monad m]

/-- What is said of a file that cannot be opened. -/
def unopened (name : String) : String := "Failed to open file: " ++ name

/-- What is said of a settings file that cannot be read. -/
def unparsed (name : String) : String := "Failed to parse config: " ++ name

/-- The text of a settings file. -/
def readText (c : Console m) (name : String) : ExceptT String m (List Char) := do
  match ← c.read name with
  | .error .missing => throw (unopened name)
  | .error .unreadable => throw (unparsed name)
  | .ok bytes => match Text.ofUtf8? bytes with
    | some text => return text
    | none => throw (unparsed name)

/-- The settings of the machine. -/
def readSettings (c : Console m) : Option String → ExceptT String m Settings
  | none => return {}
  | some name => do
    match Settings.read (← readText c name) with
    | .ok settings => return settings
    | .error .malformed => throw (unparsed name)
    | .error (.badMap fault) => throw ("Invalid memory map: " ++ fault.message)

/-- The words of the image. -/
def readImage (c : Console m) (a : Arguments) : ExceptT String m (List Word) := do
  match ← c.read (input a) with
  | .error _ => throw (unopened (input a))
  | .ok bytes =>
    let words := if a.has "text" then Image.ofText (Text.ofUtf8Lossy bytes) else Image.ofBytes bytes.toList
    ExceptT.mk (pure (words.mapError Image.Error.message))

/-- What the run shows. -/
def readView (c : Console m) (a : Arguments) : ExceptT String m View := do
  let file := a.value? "dump-cfg"
  let points ← match file with
    | none => pure []
    | some name =>
      match WatchPoint.readAll (← readText c name) with
      | some points => pure points
      | none => throw (unparsed name)
  return ⟨some ⟨file, a.has "dump-all", points⟩, a.has "trace"⟩

/-! ## Runs -/

/-- The rule under the title and under the name of the image. -/
def rule : String := "+" ++ Text.rule 47 '-' ++ "+"

/-- A row between two rules. -/
def row (text : String) : String := "| " ++ Text.padRight 45 text ++ " |"

/-- The rule under a run. -/
def closingRule : String := Text.rule 49 '='

/-- Loads the image and runs it. -/
def emulate (c : Console m) (a : Arguments) (budget? : Option Nat) : ExceptT String m (State × Halt) := do
  let settings ← readSettings c (a.value? "config")
  let words ← readImage c a
  let s ← match (State.ofSize settings.memorySize).load words with
    | .ok s => pure s
    | .error count => throw (Machine.imageTooLarge count)
  c.line (row (input a))
  c.line (row (toString words.length ++ " words"))
  c.line rule
  let view ← readView c a
  c.line "[INIT]"
  let (s, result) ← ExceptT.lift (s.runShowing view c.line (budget?.getD settings.stepBudget))
  match result with
  | .ok halt => return (s, halt)
  | .error trap => throw trap.message

/-- How a run ended. -/
def summary (s : State) (halt : Halt) : String :=
  Text.strong .green halt.text ++ " after " ++ toString s.steps ++ " steps at pc " ++ s.pc.marked

/-! ## The command -/

/-- Runs the command and gives its exit code. -/
def run (c : Console m) (args : List String) : m Nat := do
  let some args := Arguments.read specs (some 1) args | return misused
  let some budget := budget? args | return misused
  c.line "M32 Emulator"
  c.line rule
  match ← (emulate c args budget).run with
  | .ok (s, halt) =>
    c.line closingRule
    c.line (summary s halt)
    return halt.exitCode
  | .error message =>
    c.print (failureText message)
    return failed

end M32.Command.Emulate
