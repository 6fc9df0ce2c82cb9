/-
  Code for statements.

  1. A called function finds its frame above the link area: the address of the place for its result, zero if there is
     none, and the return address.  Callers reserve both and write the arguments.
  2. Every statement gives back the registers it used.  The condition of a loop or a branch is retained in the statements
     it decides on.
  3. Branches pass whole pieces of code, so their distances are sums of sizes.
-/
import M32.Lang.Code.Expr

namespace M32.Lang

/-! ## Pointers and limits -/

/-- Moves a pointer by some bytes. -/
def bumpCode (r : Reg) (delta : Int) : Emit Unit :=
  if fitsSigned 16 delta then Emit.instr (.addi r r (Int16.ofInt delta))
  else do
    Emit.pseudo (.gpr .k0 (Word.ofInt delta) .int)
    Emit.instr (.addu r r .k0)

/-- Raises a signal unless `k0` is zero. -/
def signalCode (signal : Int16) : Emit Unit :=
  Emit.lines [.instr (.beq .k0 .zero 3), .instr (.addi .sig .zero signal), .instr .syscall]

/-- Raises a signal if the stack pointer is below its limit. -/
def stackCheckCode (map : MemoryMap) : Emit Unit := do
  Emit.pseudo (.gpr .k0 map.stackLimit .uint)
  Emit.instr (.sltu .k0 .sp .k0)
  signalCode Signal.stackLimit

/-- Raises a signal if the heap pointer is above its limit. -/
def heapCheckCode (map : MemoryMap) : Emit Unit := do
  Emit.pseudo (.gpr .k0 map.heapLimit .uint)
  Emit.instr (.sltu .k0 .k0 .hp)
  signalCode Signal.heapLimit

/-- Puts a number into a register. -/
def constCode (dst : Reg) (value : Int) : Emit Unit :=
  if fitsSigned 16 value then Emit.instr (.addi dst .zero (Int16.ofInt value))
  else Emit.pseudo (.gpr dst (Word.ofInt value) .int)

/-- Stores a register at `base + offset`. -/
def storeCode (source base : Reg) (offset : Int) : Emit Unit :=
  if fitsSigned 16 offset then Emit.instr (.sw source base (Int16.ofInt offset))
  else do
    offsetCode .k1 base offset
    Emit.instr (.sw source .k1 0)

/-! ## Entering and leaving functions -/

/-- The code at the start of a function.  The first function reserves its frame itself; a called one keeps the return
    address and clears its locals. -/
def prologueCode (site : Site) : Emit Unit := do
  if site.self.isEntry then
    if site.self.frame.size > 0 then
      bumpCode .sp (-(site.self.frame.size : Int))
      stackCheckCode site.scope.map
  else
    Emit.instr (.sw .ra .sp 4)
    match site.self.locals? with
    | none => return ()
    | some (start, length) =>
      let base ← Emit.acquire site.fragment
      let count ← Emit.acquire site.fragment
      offsetCode base .sp ((Site.linkArea + start : Nat) : Int)
      constCode count ((length / wordSize : Nat) : Int)
      Emit.pseudo (.zero base count)
      Emit.registers RegPool.endStatement

/-- Ends the program, with a value or none. -/
def exitCode (site : Site) (value : Option Expr) : Emit Unit := do
  match value with
  | some e => do
    let v ← exprCode site e
    Emit.instr (.add .sig v.reg .zero)
  | none => Emit.instr (.addi .sig .zero Signal.exit)
  Emit.instr .syscall

/-- Stores the result of a function where the caller wants it, if it does. -/
def resultCode (site : Site) (e : Expr) : Emit Unit := do
  match site.self.result with
  | none => Emit.fail (.malformed site.fragment)
  | some ty =>
    let v ← exprCode site e
    Emit.ofExcept (site.expectTy ty v.ty)
    let dst ← Emit.acquire site.fragment
    Emit.lines [.instr (.lw dst .sp 0), .instr (.beq dst .zero 2), .instr (.sw v.reg dst 0)]

/-- Leaves a function. -/
def returnCode (site : Site) (value : Option Expr) : Emit Unit := do
  if site.self.isEntry then exitCode site value
  else
    match value with
    | some e => resultCode site e
    | none => pure ()
    Emit.instr (.lw .ra .sp 4)
    bumpCode .sp ((site.self.frame.size + Site.linkArea : Nat) : Int)
    Emit.instr (.jr .ra)

/-! ## Simple statements -/

/-- Stores a value. -/
def assignCode (site : Site) (target : Place) (e : Expr) : Emit Unit := do
  let v ← exprCode site e
  let dst ← placeCode site target
  Emit.ofExcept (site.expectTy dst.ty v.ty)
  Emit.instr (.sw v.reg dst.reg 0)

/-- The size of what a new pointer points at. -/
def newSize (site : Site) (ty : Ty) : Except Fault Nat := do
  site.scope.types.check ty
  match ty with
  | .pointer target => site.scope.types.sizeOf target
  | _ => .error (.malformed site.fragment)

/-- Stores the heap pointer and moves it past a new value. -/
def newCode (site : Site) (target : Place) (ty : Ty) : Emit Unit := do
  let size ← Emit.ofExcept (newSize site ty)
  let dst ← placeCode site target
  Emit.ofExcept (site.expectTy dst.ty ty)
  Emit.instr (.sw .hp dst.reg 0)
  bumpCode .hp size
  heapCheckCode site.scope.map

/-- The general register of a number.  Register 0 cannot be named. -/
def namedReg (site : Site) (n : Nat) : Except Fault Reg :=
  match Reg.ofNat? n with
  | some r => if r = .zero then .error (.registerOutOfRange n site.fragment) else .ok r
  | none => .error (.registerOutOfRange n site.fragment)

/-- Produces code for a named register that leaves it and the spared ones to the program. -/
def sparingCode (site : Site) (n : Nat) (spared : List Nat) (code : Reg → Emit Unit) : Emit Unit := do
  let reg ← Emit.ofExcept (namedReg site n)
  let others ← Emit.ofExcept (spared.mapM (namedReg site))
  let taken ← Emit.occupy (reg :: others)
  code reg
  taken.forM Emit.release

/-- The address of a place that fills one register. -/
def wordPlaceCode (site : Site) (p : Place) : Emit Reg := do
  let v ← placeCode site p
  if !v.ty.isWord then Emit.fail (.malformed site.fragment) else return v.reg

/-- Copies a place to a general register. -/
def toGprCode (site : Site) (n : Nat) (source : Place) (spared : List Nat) : Emit Unit :=
  sparingCode site n spared fun reg => do
    let r ← wordPlaceCode site source
    Emit.lines [.instr (.lw r r 0), .instr (.add reg r .zero)]

/-- Copies a general register to a place. -/
def fromGprCode (site : Site) (target : Place) (n : Nat) (spared : List Nat) : Emit Unit :=
  sparingCode site n spared fun reg => do
    let r ← wordPlaceCode site target
    Emit.instr (.sw reg r 0)

/-! ## Calls -/

/-- The address of the place for a result, or register 0 for none. -/
def destinationCode (site : Site) (callee : Signature) (target : Option Place) : Emit Reg :=
  match target, callee.result with
  | none, _ => return .zero
  | some _, none => Emit.fail (.malformed site.fragment)
  | some p, some ty => do
    let dst ← placeCode site p
    Emit.ofExcept (site.expectTy dst.ty ty)
    return dst.reg

/-- Computes arguments for parameters, and gives each register with the offset of its parameter. -/
def argsCode (site : Site) : List Expr → List Var → Emit (List (Reg × Nat))
  | e :: es, param :: params => do
    let v ← exprCode site e
    Emit.ofExcept (site.expectTy param.ty v.ty)
    return (v.reg, param.offset) :: (← argsCode site es params)
  | _, _ => return []

/-- Stores the arguments in the frame of a called function. -/
def storeArgsCode (args : List (Reg × Nat)) : Emit Unit :=
  args.forM fun a => storeCode a.1 .sp ((Site.linkArea + a.2 : Nat) : Int)

/-- Calls a function. -/
def callCode (site : Site) (c : Call) (target : Option Place) : Emit Unit := do
  let callee ← Emit.ofExcept (site.scope.function c.name)
  if callee.isEntry then Emit.fail (.malformed site.fragment)
  else
    let dst ← destinationCode site callee target
    if c.args.length ≠ callee.arity then Emit.fail (.argumentCount c.name callee.arity c.args.length)
    else
      let args ← argsCode site c.args callee.params
      bumpCode .sp (-((callee.frame.size + Site.linkArea : Nat) : Int))
      stackCheckCode site.scope.map
      Emit.instr (.sw dst .sp 0)
      storeArgsCode args
      Emit.lines [.jump "jal" callee.name]

/-! ## Loops and branches -/

/-- Computes a condition. -/
def condCode (site : Site) (cond : Expr) : Emit Reg := do
  let v ← exprCode site cond
  Emit.ofExcept (site.expectTy (.scalar .bool) v.ty)
  return v.reg

/-- A loop: the condition, a branch out of the loop, the body and a jump back. -/
def whileCode (site : Site) (cond : Expr) (body : Emit Unit) : Emit Unit := do
  let (c, test) ← Emit.capture (condCode site cond)
  let inside ← Emit.captureRetaining c body
  let out ← Emit.ofExcept (branchIfZero c (codeSize inside + 2))
  let back ← Emit.ofExcept (jumpBack (codeSize test + codeSize inside + 1))
  Emit.lines (test ++ .instr out :: inside ++ [.instr back])

/-- A branch without an alternative. -/
def ifThenCode (site : Site) (cond : Expr) (body : Emit Unit) : Emit Unit := do
  let (c, test) ← Emit.capture (condCode site cond)
  let inside ← Emit.captureRetaining c body
  let past ← Emit.ofExcept (branchIfZero c (codeSize inside + 1))
  Emit.lines (test ++ .instr past :: inside)

/-- A branch with an alternative. -/
def ifElseCode (site : Site) (cond : Expr) (body other : Emit Unit) : Emit Unit := do
  let (c, test) ← Emit.capture (condCode site cond)
  let inside ← Emit.captureRetaining c body
  let ((), otherwise) ← Emit.capture other
  let past ← Emit.ofExcept (jumpForward (codeSize otherwise + 1))
  let around ← Emit.ofExcept (branchIfZero c (codeSize inside + 2))
  Emit.lines (test ++ .instr around :: inside ++ .instr past :: otherwise)

mutual

/-- Code for a statement at its own site. -/
def stmtCode (site : Site) : Stmt → Emit Unit
  | .while cond body => whileCode site cond (stmtsCode site body)
  | .ifThen cond body => ifThenCode site cond (stmtsCode site body)
  | .ifElse cond body other => ifElseCode site cond (stmtsCode site body) (stmtsCode site other)
  | .return value => returnCode site value
  | .toGpr reg source spared => toGprCode site reg source spared
  | .fromGpr target reg spared => fromGprCode site target reg spared
  | .call c => callCode site c none
  | .assign target (.call c) => callCode site c (some target)
  | .assign target (.new ty) => newCode site target ty
  | .assign target (.expr e) => assignCode site target e

/-- Code for statements in a row.  Each of them is the fragment that its faults show. -/
def stmtsCode (site : Site) : List Stmt → Emit Unit
  | [] => return ()
  | s :: rest => do
    stmtCode (site.saying s.text) s
    Emit.registers RegPool.endStatement
    stmtsCode site rest

end

end M32.Lang
