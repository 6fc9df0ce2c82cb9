/-
  Reading pseudo-instructions.

  Two forms are written: `name(a, b)`, where a name without operands may leave the parentheses out, and
  `gpr(r) = enc(literal, type)`, told apart by an equals sign anywhere in the text.  `Invocation` is a name with its operands
  in parentheses; `Pseudo.read` is the whole reader.  The literal may hold commas: the type follows the last one.
-/
import M32.Pseudo
import M32.Text.Cut

namespace M32

/-! ## Invocations -/

/-- A name with the operands between its parentheses. -/
structure Invocation where
  name : List Char
  args : List (List Char)
  deriving DecidableEq, Repr

/-- The name and operands of a text, trimmed.  Fails if the text after the first `(` does not end with `)`. -/
def Invocation.read? (cs : List Char) : Option Invocation :=
  let cs := Text.trim cs
  match Text.cutFirst? '(' cs with
  | none => some ⟨cs, []⟩
  | some (name, rest) =>
    (Text.dropEnd? ')' rest).map fun inner =>
      ⟨Text.trim name, if (Text.trim inner).isEmpty then [] else (Text.fieldsAt ',' inner).map Text.trim⟩

namespace Pseudo

/-! ## Parts -/

/-- The refusal of a text as a whole. -/
def malformed (cs : List Char) : PseudoError := .malformed (String.ofList (Text.trim cs))

/-- A register operand. -/
def readReg (cs : List Char) : Except PseudoError Reg :=
  match Reg.read? cs with
  | some r => .ok r
  | none => .error (.badOperand (String.ofList cs) "register")

/-- What stands between the parentheses of `enc( )`. -/
def readEnc? (cs : List Char) : Option (List Char) :=
  (Text.dropPrefix? "enc".toList (Text.trim cs)).bind fun rest =>
    match Text.trimStart rest with
    | '(' :: inner => Text.dropEnd? ')' inner
    | _ => none

/-- The literal and type of a load. -/
def readLiteral (value ty : List Char) : Except PseudoError (Word × Scalar) :=
  match Scalar.ofName? (Text.trim ty) with
  | none => .error (.badOperand (String.ofList (Text.trim ty)) "type")
  | some s => match s.encode? value with
    | none => .error (.badOperand (String.ofList (Text.trim value)) s.name)
    | some w => .ok (w, s)

/-! ## The two forms -/

/-- A load of a literal, from the two sides of its equals sign. -/
def readLoad (cs lhs rhs : List Char) : Except PseudoError Pseudo := do
  let some invocation := Invocation.read? lhs | .error (malformed cs)
  if PseudoKind.ofName? invocation.name ≠ some .gpr then .error (malformed cs)
  let [arg] := invocation.args | .error (.operandCount (String.ofList invocation.name) 1 invocation.args.length)
  let reg ← readReg arg
  let some inner := readEnc? rhs | .error (malformed cs)
  let some (value, ty) := Text.cutLast? ',' inner | .error (malformed cs)
  let (w, s) ← readLiteral value ty
  .ok (gpr reg w s)

/-- The pseudo-instruction of a kind with its registers. -/
def ofRegs? : PseudoKind → List Reg → Option Pseudo
  | .zero, [base, count] => some (zero base count)
  | .mul, [dst, a, b] => some (mul dst a b)
  | .divu, [dst, a, b] => some (divu dst a b)
  | .divt, [dst, a, b] => some (divt dst a b)
  | .ssave, [r] => some (ssave r)
  | .srestore, [r] => some (srestore r)
  | .saveUser, [] => some saveUser
  | .restoreUser, [] => some restoreUser
  | _, _ => none

/-- A name with register operands. -/
def readInvocation (cs : List Char) : Except PseudoError Pseudo := do
  let some invocation := Invocation.read? cs | .error (malformed cs)
  if invocation.name.isEmpty then .error (malformed cs)
  let some kind := PseudoKind.ofName? invocation.name | .error (.unknown (String.ofList invocation.name))
  if kind = .gpr then .error (malformed cs)
  if invocation.args.length ≠ kind.arity then .error (.operandCount kind.name kind.arity invocation.args.length)
  let regs ← invocation.args.mapM readReg
  match ofRegs? kind regs with
  | some p => .ok p
  | none => .error (malformed cs)

/-- Reads the text after the mark. -/
def read (cs : List Char) : Except PseudoError Pseudo :=
  match Text.cutFirst? '=' cs with
  | some (lhs, rhs) => readLoad cs lhs rhs
  | none => readInvocation cs

example : read "gpr(5) = enc(-1, int)".toList = .ok (gpr ⟨5⟩ 0xFFFFFFFF .int) := rfl

example : read " Mul(1, r2, $3)".toList = .ok (mul ⟨1⟩ ⟨2⟩ ⟨3⟩) := rfl

example : read "gpr(5)".toList = .error (.malformed "gpr(5)") := rfl

end Pseudo

end M32
