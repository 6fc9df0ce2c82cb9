/-
  Code for expressions and places.

  `exprCode` computes the value of an expression in a register of its own, and `placeCode` the address of a place; the
  type that either gives is that of the value or of what lies at the address.  The registers of right operands,
  indices and scale factors are given back when their values have been used.
-/
import M32.Lang.Code.Emit
import M32.Lang.Scope
import M32.Lang.Tree.Printer

namespace M32.Lang

/-! ## Where code stands -/

/-- The function whose code is produced, and the statement, as messages show it. -/
structure Site where
  scope : Scope
  self : Signature
  fragment : String := ""

namespace Site

/-- A site at another statement of the function. -/
def saying (site : Site) (fragment : String) : Site := { site with fragment }

/-- The number of bytes between the stack pointer and the frame of a called function: the place of the result and
    the return address. -/
def linkArea : Nat := 8

/-- The number of bytes between the stack pointer and the frame. -/
def frameBase (site : Site) : Nat := if site.self.isEntry then 0 else linkArea

/-- The register from which a variable is reached, its distance from there and its type.  A variable of the frame
    hides a global one. -/
def locate (site : Site) (name : String) : Except Fault (Reg × Nat × Ty) :=
  match site.self.frame.find? name, site.scope.global? name with
  | some v, _ => .ok (.sp, site.frameBase + v.offset, v.ty)
  | none, some v => .ok (.bp, v.offset, v.ty)
  | none, none => .error (.undefinedVariable name)

/-- The fault of a type that is not as it should be. -/
def mismatch (site : Site) (expected : String) (found : Ty) : Fault := .typeMismatch site.fragment expected found.text

/-- Refuses a type other than the expected one. -/
def expectTy (site : Site) (expected found : Ty) : Except Fault Unit :=
  if expected = found then .ok () else .error (site.mismatch expected.text found)

end Site

/-! ## Addresses and constants -/

/-- A register, and the type of the value in it or of what lies at the address in it. -/
structure Value where
  ty : Ty
  reg : Reg
  deriving DecidableEq, Repr

/-- Puts `base + offset` into a register.  Offsets that are too long for an instruction go through `k1`. -/
def offsetCode (dst base : Reg) (offset : Int) : Emit Unit :=
  if fitsSigned 16 offset then Emit.instr (.addi dst base (Int16.ofInt offset))
  else do
    Emit.pseudo (.gpr .k1 (Word.ofInt offset) .int)
    Emit.instr (.addu dst base .k1)

/-- Puts a word into a register of its own. -/
def literalCode (site : Site) (s : Scalar) (w : Word) : Emit Value := do
  let reg ← Emit.acquire site.fragment
  Emit.pseudo (.gpr reg w s)
  return ⟨.scalar s, reg⟩

/-- The word of a number. -/
def numberWord (e : Expr) (value : Nat) (isUnsigned : Bool) : Except Fault Word :=
  if value < (if isUnsigned then 0x100000000 else 0x80000000) then .ok (UInt32.ofNat value)
  else .error (.literalOutOfRange e.text)

/-- Multiplies an index by the size of an element. -/
def scaleCode (site : Site) (i : Reg) (size : Nat) : Emit Unit := do
  if 1 <<< size.log2 = size then
    if size.log2 = 0 then return ()
    Emit.instr (.sll i i (UInt8.ofNat size.log2))
  else
    let scale ← Emit.acquire site.fragment
    Emit.pseudo (.gpr scale (UInt32.ofNat size) .uint)
    Emit.pseudo (.mul i i scale)
    Emit.release scale

/-! ## Operators -/

/-- Whether an operator takes operands of a type. -/
def BinaryOp.takes (op : BinaryOp) (ty : Ty) : Bool :=
  match op with
  | add | sub | mul | div => ty = .scalar .int || ty = .scalar .uint
  | lt | gt | le | ge => ty = .scalar .int || ty = .scalar .uint || ty = .scalar .char
  | eq | ne => ty.isWord
  | and | or => ty = .scalar .bool

/-- The type of the result of an operator. -/
def BinaryOp.resultTy (op : BinaryOp) (ty : Ty) : Ty :=
  match op with
  | add | sub | mul | div => ty
  | _ => .scalar .bool

/-- Sets a register to whether `x` is less than `y`.  Only `int` is signed. -/
def lessInstr (ty : Ty) (dst x y : Reg) : Instr :=
  if ty = .scalar .int then .slt dst x y else .sltu dst x y

/-- Applies an operator to two registers.  The result takes the place of the left operand. -/
def applyCode (op : BinaryOp) (ty : Ty) (a b : Reg) : Emit Unit :=
  match op with
  | .add => Emit.instr (.addu a a b)
  | .sub => Emit.instr (.subu a a b)
  | .mul => Emit.pseudo (.mul a a b)
  | .div => Emit.pseudo (if ty = .scalar .int then .divt a a b else .divu a a b)
  | .lt => Emit.instr (lessInstr ty a a b)
  | .gt => Emit.instr (lessInstr ty a b a)
  | .le => Emit.lines [.instr (lessInstr ty a b a), .instr (.xori a a 1)]
  | .ge => Emit.lines [.instr (lessInstr ty a a b), .instr (.xori a a 1)]
  | .ne => Emit.lines [.instr (.arith .xor a a b), .instr (.beq a .zero 2), .instr (.addi a .zero 1)]
  | .eq =>
    Emit.lines [.instr (.arith .xor a a b), .instr (.beq a .zero 2), .instr (.addi a .zero 1), .instr (.xori a a 1)]
  | .and => Emit.instr (.arith .and a a b)
  | .or => Emit.instr (.arith .or a a b)

/-- Applies an operator to the values of its operands. -/
def binaryCode (site : Site) (op : BinaryOp) (l r : Value) : Emit Value := do
  Emit.ofExcept (site.expectTy l.ty r.ty)
  if !op.takes l.ty then Emit.fail (site.mismatch ("operand of `" ++ op.text ++ "`") l.ty)
  else
    applyCode op l.ty l.reg r.reg
    Emit.release r.reg
    return ⟨op.resultTy l.ty, l.reg⟩

/-- Applies an operator to the value of its operand. -/
def unaryCode (site : Site) (op : UnaryOp) (v : Value) : Emit Value := do
  match op with
  | .not =>
    Emit.ofExcept (site.expectTy (.scalar .bool) v.ty)
    Emit.lines [.instr (.addi v.reg v.reg (-1)), .instr (.slt v.reg v.reg .zero)]
  | .neg =>
    Emit.ofExcept (site.expectTy (.scalar .int) v.ty)
    Emit.instr (.subu v.reg .zero v.reg)
  return v

/-! ## Steps of places -/

/-- Adds an index to the address of the first of some elements. -/
def indexCode (site : Site) (address : Reg) (elem : Ty) (i : Value) : Emit Value := do
  if !(i.ty = .scalar .int || i.ty = .scalar .uint) then Emit.fail (site.mismatch (Ty.scalar .int).text i.ty)
  else
    let size ← Emit.ofExcept (site.scope.types.sizeOf elem)
    scaleCode site i.reg size
    Emit.instr (.addu address address i.reg)
    Emit.release i.reg
    return ⟨elem, address⟩

/-- The type of the elements that an index reaches, after loading the address if it is kept in a pointer. -/
def elementsCode (site : Site) (v : Value) : Emit Ty :=
  match v.ty with
  | .array elem _ => return elem
  | .pointer target => do
    Emit.instr (.lw v.reg v.reg 0)
    return target
  | ty => Emit.fail (site.mismatch "array or pointer" ty)

/-- Goes from a struct to one of its fields. -/
def fieldCode (site : Site) (v : Value) (name : String) : Emit Value :=
  match v.ty with
  | .struct owner => do
    let field ← Emit.ofExcept (site.scope.types.field owner name)
    if field.offset ≠ 0 then offsetCode v.reg v.reg field.offset
    return ⟨field.ty, v.reg⟩
  | ty => Emit.fail (site.mismatch "struct" ty)

/-- Goes from a pointer to its target. -/
def derefCode (site : Site) (v : Value) : Emit Value :=
  match v.ty with
  | .pointer target => do
    Emit.instr (.lw v.reg v.reg 0)
    return ⟨target, v.reg⟩
  | ty => Emit.fail (site.mismatch "pointer" ty)

/-- The address of a variable. -/
def varCode (site : Site) (name : String) : Emit Value := do
  let (base, offset, ty) ← Emit.ofExcept (site.locate name)
  let reg ← Emit.acquire site.fragment
  offsetCode reg base offset
  return ⟨ty, reg⟩

/-- The value at an address, which has to fill one register. -/
def loadCode (site : Site) (v : Value) : Emit Value := do
  if !v.ty.isWord then Emit.fail (.malformed site.fragment)
  else
    Emit.instr (.lw v.reg v.reg 0)
    return v

/-! ## Expressions and places -/

mutual

/-- Computes an expression in a register of its own. -/
def exprCode (site : Site) : Expr → Emit Value
  | .number value isUnsigned => do
    let w ← Emit.ofExcept (numberWord (.number value isUnsigned) value isUnsigned)
    literalCode site (if isUnsigned then .uint else .int) w
  | .bool value => literalCode site .bool (Word.ofBool value)
  | .char value => literalCode site .char (UInt32.ofNat value.toNat)
  | .place p => do loadCode site (← placeCode site p)
  | .unary op operand => do unaryCode site op (← exprCode site operand)
  | .binary op left right => do
    let l ← exprCode site left
    let r ← exprCode site right
    binaryCode site op l r

/-- Computes the address of a place in a register of its own. -/
def placeCode (site : Site) : Place → Emit Value
  | .var name => varCode site name
  | .index base i => do
    let v ← placeCode site base
    let elem ← elementsCode site v
    indexCode site v.reg elem (← exprCode site i)
  | .field base name => do fieldCode site (← placeCode site base) name
  | .deref base => do derefCode site (← placeCode site base)

end

end M32.Lang
