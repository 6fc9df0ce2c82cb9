/-
  The command of the assembler.

  It assembles its inputs in order as one program, writes the image and, where that is asked for, prints a listing.
  All inputs are read before the first is assembled; one that is named twice is assembled once.  What goes wrong is
  kept as the text that says so.  `perform` does what a `Request` asks for, and `run` takes the request from arguments.
-/
import M32.Assembly.Image
import M32.Assembly.Listing
import M32.Command.Arguments
import M32.Command.Console
import M32.Text.Utf8

namespace M32.Command.Assemble

open M32.Assembly (Assembler Placed Source)

/-! ## Requests -/

/-- What is asked of the command. -/
structure Request where
  /-- The inputs in order. -/
  inputs : List String
  /-- The file for the image. -/
  output : String
  /-- Whether the image is written as binary text. -/
  text : Bool := false
  /-- Whether a listing is printed. -/
  dump : Bool := false
  deriving DecidableEq, Repr

/-- The options of the command. -/
def specs : List OptionSpec :=
  [⟨"output", some 'o', true⟩, ⟨"text", none, false⟩, ⟨"dump", some 'd', false⟩, ⟨"verbose", some 'v', false⟩]

/-- What some arguments ask for. -/
def Request.ofArguments (a : Arguments) : Request where
  inputs := if a.inputs.isEmpty then ["main.s"] else a.inputs
  output := (a.value? "output").getD "main.bin"
  text := a.has "text"
  dump := a.has "dump"

/-- The image as it stands in its file. -/
def Request.imageBytes (r : Request) (words : List Word) : ByteArray :=
  if r.text then (Image.text words).toUTF8 else ⟨(Image.bytes words).toArray⟩

/-! ## Steps -/

variable {m : Type → Type} [Monad m]

/-- Reads an input. -/
def readSource (c : Console m) (name : String) : ExceptT String m Source := do
  match ← c.read name with
  | .error .missing => throw (failureText ("Failed to open file: " ++ name))
  | .error .unreadable => throw (failureText "Failed to read file")
  | .ok bytes => match Text.ofUtf8? bytes with
    | some text => return Source.ofText name text
    | none => throw (failureText "Failed to read file")

/-- Adds a source.  It takes the place of one of the same name. -/
def putSource (sources : List Source) (s : Source) : List Source :=
  if sources.any (·.name = s.name) then sources.map fun t => if t.name = s.name then s else t else sources ++ [s]

/-- Reads inputs in order and adds them to some sources. -/
def readSources (c : Console m) (sources : List Source) : List String → ExceptT String m (List Source)
  | [] => return sources
  | name :: rest => do readSources c (putSource sources (← readSource c name)) rest

/-- Assembles inputs one after the other, and gives each with the address after its last instruction. -/
def feedSources (c : Console m) (a : Assembler) : List Source → ExceptT String m (Assembler × List (Source × Word))
  | [] => return (a, [])
  | s :: rest => do
    c.line ("  < " ++ s.name)
    match a.feedLines 1 s.lines with
    | .error e => throw (e.diagnostic s.name s.lines)
    | .ok a =>
      let (last, ends) ← feedSources c a rest
      return (last, (s, a.pc) :: ends)

/-- Ends a program.  What is wrong with it as a whole is told of the last input. -/
def finish (a : Assembler) (sources : List Source) : Except String (List Placed) :=
  a.finish.mapError fun e => e.diagnostic ((sources.getLast?.map Source.name).getD "") []

/-- Writes a file. -/
def writeFile (c : Console m) (name : String) (bytes : ByteArray) : ExceptT String m Unit := do
  c.line ("  > " ++ name)
  if ← c.write name bytes then return () else throw (Assembly.blame ("Failed to create file: " ++ name) name)

/-- Assembles the inputs and gives the number of words. -/
def assembleInputs (c : Console m) (r : Request) : ExceptT String m Nat := do
  let sources ← readSources c [] r.inputs
  let (a, ends) ← feedSources c {} sources
  let placed ← ExceptT.mk (pure (finish a sources))
  writeFile c r.output (r.imageBytes (placed.map Placed.word))
  if r.dump then c.print (Assembly.Listing.render (Assembly.Listing.splitAt placed ends))
  return placed.length

/-! ## The command -/

/-- Does what is asked and gives the exit code. -/
def perform (c : Console m) (r : Request) : m Nat := do
  c.line "M32 Assembler"
  match ← (assembleInputs c r).run with
  | .ok count =>
    c.line (Text.strong .green "ok" ++ ": " ++ toString count ++ " words")
    return success
  | .error text =>
    c.print text
    return failed

/-- Runs the command and gives its exit code. -/
def run (c : Console m) (args : List String) : m Nat :=
  match Arguments.read specs none args with
  | none => return misused
  | some a => perform c (.ofArguments a)

end M32.Command.Assemble
