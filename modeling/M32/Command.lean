/-
  The three commands, by name.
-/
import M32.Command.Assemble
import M32.Command.Compile
import M32.Command.Emulate

namespace M32.Command

/-- The command of a name: it gives an exit code. -/
def ofName? {m : Type → Type} [Monad m] : String → Option (Console m → List String → m Nat)
  | "assemble" => some Assemble.run
  | "compile" => some Compile.run
  | "emulate" => some Emulate.run
  | _ => none

end M32.Command
