/-
  The program: the first argument names a command, the others are its arguments.
-/
import M32.Command

namespace M32

open Command (Console ReadFault)

/-- The files and the standard output of the system. -/
def systemConsole : Console IO where
  read name := do
    match ← (IO.FS.Handle.mk name .read).toBaseIO with
    | .error _ => return .error .missing
    | .ok handle => match ← handle.readBinToEnd.toBaseIO with
      | .error _ => return .error .unreadable
      | .ok bytes => return .ok bytes
  write name bytes := do
    match ← (IO.FS.writeBinFile name bytes).toBaseIO with
    | .error _ => return false
    | .ok () => return true
  print text := do
    (← IO.getStdout).putStr text

end M32

/-- Runs a command. -/
def main (args : List String) : IO UInt32 := do
  match args with
  | name :: rest =>
    match M32.Command.ofName? name with
    | some command => return UInt32.ofNat (← command M32.systemConsole rest)
    | none => return UInt32.ofNat M32.Command.misused
  | [] => return UInt32.ofNat M32.Command.misused
