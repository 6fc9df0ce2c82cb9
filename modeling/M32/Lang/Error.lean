/-
  What can be wrong with a program.

  `Fault` is a cause and `Error` a cause with the function where it was found.  `message` is the wording;
  `diagnostic` adds the line of a token that does not fit.
-/
import M32.Assembly.Error
import M32.Lang.Token
import M32.Text.Paint

namespace M32.Lang

/-- Why a program is refused. -/
inductive Fault where
  /-- A token that does not fit, or none where the text ends too early. -/
  | unexpected (found? : Option Token)
  | unknownType (name : String)
  | recursiveStruct (name : String)
  | redefined (name : String)
  | tooLarge (name : String)
  | noMain
  | typeMismatch (fragment expected found : String)
  | malformed (fragment : String)
  | undefinedVariable (name : String)
  | undefinedFunction (name : String)
  | noSuchField (owner name : String)
  | argumentCount (name : String) (expected found : Nat)
  | registerOutOfRange (number : Nat) (fragment : String)
  | registersExhausted (fragment : String)
  | literalOutOfRange (literal : String)
  | branchTooFar (distance : Nat)
  | pseudo (e : PseudoError)
  | assembly (e : Assembly.Error)

/-- The wording of a fault. -/
def Fault.message : Fault → String
  | unexpected none => "Unexpected end of file"
  | unexpected (some t) => "Unexpected token: " ++ t.kind.describe ++ " at " ++ t.pos.text
  | unknownType name => "Unknown type: " ++ name
  | recursiveStruct name => "Struct `" ++ name ++ "` contains itself"
  | redefined name => "`" ++ name ++ "` is defined twice"
  | tooLarge name => "`" ++ name ++ "` does not fit the 32-bit address space"
  | noMain => "No `main` function"
  | typeMismatch fragment expected found =>
    "Type mismatch in `" ++ fragment ++ "`: expected " ++ expected ++ ", found " ++ found
  | malformed fragment => "Malformed statement: `" ++ fragment ++ "`"
  | undefinedVariable name => "Undefined variable: `" ++ name ++ "`"
  | undefinedFunction name => "Undefined function: `" ++ name ++ "`"
  | noSuchField owner name => "No field `" ++ name ++ "` in `" ++ owner ++ "`"
  | argumentCount name expected found =>
    "`" ++ name ++ "` takes " ++ toString expected ++ " argument(s), found " ++ toString found
  | registerOutOfRange number fragment =>
    "Register " ++ toString number ++ " out of range in `" ++ fragment ++ "`: expected 1..=31"
  | registersExhausted fragment => "Out of registers in `" ++ fragment ++ "`"
  | literalOutOfRange literal => "Literal does not fit 32 bits: `" ++ literal ++ "`"
  | branchTooFar distance => "Branch over " ++ toString distance ++ " instructions does not fit the offset field"
  | pseudo e => e.message
  | assembly e => "Generated assembly was rejected: " ++ e.message

/-- The token that does not fit. -/
def Fault.token? : Fault → Option Token
  | unexpected found? => found?
  | _ => none

/-- A fault with the function where it was found, if it was found in one. -/
structure Error where
  function? : Option String
  fault : Fault

namespace Error

/-- A fault outside functions. -/
def ofFault (fault : Fault) : Error := ⟨none, fault⟩

/-- The wording of an error. -/
def message (e : Error) : String :=
  match e.function? with
  | some name => "In function `" ++ name ++ "`: " ++ e.fault.message
  | none => e.fault.message

/-- The line of a token under its place, and a mark under its column. -/
def pointer (t : Token) (lines : List (List Char)) : String :=
  let shown := String.ofList ((lines[t.pos.line]?).getD [])
  let bar := "      " ++ Text.coloured .blue "|"
  "     " ++ Text.coloured .blue "-->" ++ " " ++ Text.underlined t.pos.text ++ "\n" ++ bar ++ "\n"
    ++ " " ++ Text.coloured .blue (Text.padLeft 4 (toString (t.pos.line + 1)) ++ " |") ++ " " ++ shown ++ "\n"
    ++ bar ++ " " ++ Text.rule t.pos.col ' ' ++ Text.strong .red "^" ++ "\n"

/-- An error with the place of the token that does not fit. -/
def diagnostic (e : Error) (lines : List (List Char)) : String :=
  Text.strong .red "error" ++ ": " ++ e.message ++ "\n" ++
    match e.fault.token? with
    | some t => pointer t lines
    | none => ""

end Error

end M32.Lang
