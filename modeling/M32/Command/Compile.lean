/-
  The command of the compiler.

  It compiles a source file to assembly text and, where that is asked for, assembles the text as well.  A settings file
  may set the memory map.  What goes wrong is kept as the text that says so.
-/
import M32.Assembly.Image
import M32.Command.Arguments
import M32.Command.Console
import M32.Lang.Code.Program
import M32.Settings
import M32.Text.Utf8

namespace M32.Command.Compile

/-! ## Arguments -/

/-- The options of the command. -/
def specs : List OptionSpec :=
  [⟨"output", some 'o', true⟩, ⟨"bin", none, true⟩, ⟨"config", some 'c', true⟩, ⟨"verbose", some 'v', false⟩]

/-- The source file. -/
def input (a : Arguments) : String := a.inputs.headD "main.c"

/-- The file for the assembly text. -/
def output (a : Arguments) : String := (a.value? "output").getD "main.s"

/-! ## Files -/

variable {m : Type → Type} [Monad m]

/-- What is said of a file that cannot be opened. -/
def unopened (name : String) : String := failureText ("Could not open file `" ++ name ++ "`")

/-- What is said of a settings file that cannot be read. -/
def unparsed (name : String) : String := failureText ("Could not parse config `" ++ name ++ "`: no memory map")

/-- The source text. -/
def readSource (c : Console m) (name : String) : ExceptT String m (List Char) := do
  match (← c.read name).toOption.bind Text.ofUtf8? with
  | some text => return text
  | none => throw (unopened name)

/-- The memory map. -/
def readMap (c : Console m) : Option String → ExceptT String m MemoryMap
  | none => return {}
  | some name => do
    match ← c.read name with
    | .error .missing => throw (unopened name)
    | .error .unreadable => throw (unparsed name)
    | .ok bytes => match (Text.ofUtf8? bytes).map Settings.readMap with
      | some (.ok map) => return map
      | some (.error (.badMap fault)) => throw (failureText ("Invalid memory map: " ++ fault.message))
      | _ => throw (unparsed name)

/-- Writes a file. -/
def writeFile (c : Console m) (name : String) (bytes : ByteArray) : ExceptT String m Unit := do
  c.line ("  > " ++ name)
  if ← c.write name bytes then return () else throw (failureText ("Could not write file `" ++ name ++ "`"))

/-! ## The command -/

/-- Compiles the source file. -/
def compileInput (c : Console m) (a : Arguments) : ExceptT String m Unit := do
  let text ← readSource c (input a)
  let told {α : Type} (r : Except Lang.Error α) : ExceptT String m α :=
    ExceptT.mk (pure (r.mapError fun e => e.diagnostic (Text.lines text)))
  let map ← readMap c (a.value? "config")
  c.line ("  < " ++ input a)
  let asm ← told (Lang.compile (input a) text map)
  writeFile c (output a) asm.toUTF8
  match a.value? "bin" with
  | none => return ()
  | some name =>
    let placed ← told (Lang.assembleCode asm)
    writeFile c name ⟨(Image.bytes (placed.map Assembly.Placed.word)).toArray⟩

/-- Runs the command and gives its exit code. -/
def run (c : Console m) (args : List String) : m Nat := do
  let some args := Arguments.read specs (some 1) args | return misused
  c.line "M32 Compiler"
  match ← (compileInput c args).run with
  | .ok () =>
    c.line (Text.strong .green "ok")
    return success
  | .error text =>
    c.print text
    return failed

end M32.Command.Compile
