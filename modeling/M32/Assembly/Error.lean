/-
  Why assembly text is refused.

  A `Fault` is what is wrong; an `Error` also says in which line, unless it is wrong with the text as a whole:
  labels that are never defined are missed only at the end.
-/
import M32.Pseudo
import M32.Text.Columns

namespace M32.Assembly

/-- What is wrong with assembly text. -/
inductive Fault where
  | unknownOperation (name : String)
  | operandCount (op : Op) (found : Nat)
  | badOperand (text : String) (slot : Op.Slot)
  | outOfRange (text : String) (slot : Op.Slot)
  | invalidLabel (name : String)
  | pseudo (cause : PseudoError)
  | undefinedLabels (names : List String)
  | redefinedLabel (name : String) (firstLine : Nat)
  | unreachable (address : Word)
  deriving DecidableEq, Repr

/-- The wording of a fault. -/
def Fault.message : Fault → String
  | unknownOperation name => "Unknown operation: `" ++ name ++ "`"
  | operandCount op found =>
    "`" ++ op.name ++ "` takes " ++ toString op.slots.length ++ " operand(s), found " ++ toString found
  | badOperand text slot => "Cannot parse `" ++ text ++ "` as " ++ slot.describe
  | outOfRange text slot => "Operand `" ++ text ++ "` out of range for " ++ slot.describe
  | invalidLabel name => "Invalid label name: `" ++ name ++ "`"
  | pseudo cause => cause.message
  | undefinedLabels names => "Undefined label(s): " ++ Text.join ", " names
  | redefinedLabel name firstLine =>
    "Re-defined label: `" ++ name ++ "` (first defined on line " ++ toString firstLine ++ ")"
  | unreachable address => "Address " ++ address.marked ++ " cannot be reached by a jump"

/-- A fault with the number of its line, counted from 1. -/
structure Error where
  line : Option Nat
  fault : Fault
  deriving DecidableEq, Repr

/-- The wording of an error. -/
def Error.message (e : Error) : String :=
  match e.line with
  | some n => "line " ++ toString n ++ ": " ++ e.fault.message
  | none => e.fault.message

end M32.Assembly
