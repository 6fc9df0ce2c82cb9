/-
  Code for programs.

  1. `functionCode` is the code of a function and `programCode` the code of a program: a few instructions that set
     the base registers and enter the first function, and then all functions in order.
  2. `compile` goes from source text to assembly text and `build` on to the words of an image.
-/
import M32.Assembly.Assembler
import M32.Lang.Code.Stmt
import M32.Lang.Tree.Parser

namespace M32.Lang

/-! ## Functions -/

/-- Whether a function ends with a `return` of its own. -/
def endsWithReturn (body : List Stmt) : Bool :=
  match body.getLast? with
  | some (.return _) => true
  | _ => false

/-- The code of the body of a function.  One that does not end with a `return` gets one. -/
def bodyCode (site : Site) (body : List Stmt) : Emit Unit := do
  prologueCode site
  stmtsCode site body
  if endsWithReturn body then return () else returnCode site none

/-- The code of a function under its label. -/
def functionCode (scope : Scope) (self : Signature) (f : Function) : Except Fault (List Line) :=
  (bodyCode { scope, self } f.body {}).map fun r => .label self.name :: r.code

/-! ## Programs -/

/-- Sets the base registers and enters the first function. -/
def startCode (map : MemoryMap) : List Line :=
  [.pseudo (.gpr .bp map.globalBase .uint), .pseudo (.gpr .sp map.stackTop .uint),
    .pseudo (.gpr .hp map.heapBase .uint), .jump "j" entryName]

/-- The code of some functions. -/
def functionsCode (scope : Scope) : List Function → Except Error (List Line)
  | [] => .ok []
  | f :: fs => do
    let self ← (scope.function f.name).mapError .ofFault
    let code ← (functionCode scope self f).mapError fun fault => ⟨some f.name, fault⟩
    return code ++ (← functionsCode scope fs)

/-- The code of a program. -/
def programCode (scope : Scope) (p : Program) : Except Error (List Line) := do
  return startCode scope.map ++ (← functionsCode scope p.functions)

/-- The program of a text, as an error of the compiler if it cannot be read. -/
def readProgram (file : String) (cs : List Char) : Except Error Program :=
  (Program.ofText file cs).mapError fun e => .ofFault (.unexpected e.found?)

/-- The generated lines of a source text. -/
def compileLines (file : String) (cs : List Char) (map : MemoryMap) : Except Error (List Line) := do
  let p ← readProgram file cs
  programCode (← Scope.ofProgram map p) p

/-- The assembly text of a source text. -/
def compile (file : String) (cs : List Char) (map : MemoryMap) : Except Error String :=
  (compileLines file cs map).map renderCode

/-- Assembles generated text. -/
def assembleCode (asm : String) : Except Error (List Assembly.Placed) :=
  (Assembly.assemble asm.toList).mapError fun e => .ofFault (.assembly e)

/-- The assembly text and the words of a source text. -/
def build (file : String) (cs : List Char) (map : MemoryMap) : Except Error (String × List Word) := do
  let asm ← compile file cs map
  let placed ← assembleCode asm
  return (asm, placed.map Assembly.Placed.word)

example : (compileLines "f" "int x; void main() { x = 2 }".toList {}).toOption.map (·.drop 4) = some
    [.label "main", .pseudo (.gpr ⟨1⟩ 2 .int), .instr (.addi ⟨2⟩ .bp 0), .instr (.sw ⟨1⟩ ⟨2⟩ 0),
      .instr (.addi .sig .zero 1), .instr .syscall] := by decide +kernel

end M32.Lang
