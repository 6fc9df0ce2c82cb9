/-
  What commands need of the world: files and a place to print.

  Commands are written over any monad that has these, so that they are pure where the files are.
-/
import M32.Text.Paint

namespace M32.Command

/-- Why a file is not read. -/
inductive ReadFault where
  | missing
  | unreadable
  deriving DecidableEq, Repr

/-- Files and a place to print. -/
structure Console (m : Type → Type) where
  /-- The bytes of a file. -/
  read : String → m (Except ReadFault ByteArray)
  /-- Writes a file and says whether it could. -/
  write : String → ByteArray → m Bool
  /-- Prints a text. -/
  print : String → m PUnit

namespace Console

variable {m : Type → Type}

/-- Prints a line. -/
def line (c : Console m) (text : String) : m PUnit := c.print (text ++ "\n")

end Console

/-- The line that says what went wrong. -/
def failureText (message : String) : String := Text.strong .red "error" ++ ": " ++ message ++ "\n"

/-- The exit code of a command that did its work. -/
def success : Nat := 0

/-- The exit code of a command that did not. -/
def failed : Nat := 1

/-- The exit code of a command whose arguments cannot be read. -/
def misused : Nat := 2

end M32.Command
