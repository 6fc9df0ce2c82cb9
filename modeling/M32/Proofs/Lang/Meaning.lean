/-
  What programs mean: an evaluator over words of memory.

  1. `Store` is memory as a program knows it, with the address of the next object of the heap.
  2. `Activation` is a function at work.  It reaches the globals, the heap, its own frame and the frames of the functions
     that wait for it, at aligned addresses; no other access has a meaning.
  3. `Expr.eval` gives the type and the value of an expression, `Place.find` the type and the address of a place.
  4. `Stmt.exec` carries out a statement, given what rows of statements come to, and `runStmts` a row of statements with
     so much fuel.
  5. `Program.outcome` is what a program comes to.
-/
import M32.Lang.Code.Program

namespace M32.Lang

/-! ## Values -/

/-- The truth value of a word.  Only 0 and 1 have one. -/
def truth? (w : Word) : Option Bool := if w = 0 then some false else if w = 1 then some true else none

/-- Whether a word is less than another.  Only `int` is signed. -/
def isLess (ty : Ty) (a b : Word) : Bool := if ty = .scalar .int then a.toInt < b.toInt else a.toNat < b.toNat

/-- A quotient, toward zero.  A quotient by zero is all ones. -/
def quotient (ty : Ty) (a b : Word) : Word :=
  if b = 0 then 0xFFFFFFFF
  else if ty = .scalar .int then Word.ofInt (a.toInt.tdiv b.toInt)
  else a / b

/-- The value of an operator at two values of a type. -/
def BinaryOp.value? (op : BinaryOp) (ty : Ty) (a b : Word) : Option Word :=
  match op with
  | .add => some (a + b)
  | .sub => some (a - b)
  | .mul => some (a * b)
  | .div => some (quotient ty a b)
  | .lt => some (Word.ofBool (isLess ty a b))
  | .gt => some (Word.ofBool (isLess ty b a))
  | .le => some (Word.ofBool (!isLess ty b a))
  | .ge => some (Word.ofBool (!isLess ty a b))
  | .eq => some (Word.ofBool (a == b))
  | .ne => some (Word.ofBool (a != b))
  | .and => do return Word.ofBool ((← truth? a) && (← truth? b))
  | .or => do return Word.ofBool ((← truth? a) || (← truth? b))

/-- The value of an operator at a value. -/
def UnaryOp.value? (op : UnaryOp) (w : Word) : Option Word :=
  match op with
  | .not => (truth? w).map fun b => Word.ofBool (!b)
  | .neg => some (-w)

/-! ## Memory -/

/-- A stretch of memory. -/
structure Block where
  start : Nat
  size : Nat

/-- Whether the word at an address lies in a stretch. -/
def Block.holds (b : Block) (a : Word) : Bool := b.start ≤ a.toNat && a.toNat + 4 ≤ b.start + b.size

/-- Memory as a program knows it, and where the next object of the heap will lie. -/
structure Store where
  word : Word → Word
  next : Word

namespace Store

/-- The store with a word changed. -/
def put (st : Store) (a w : Word) : Store := { st with word := fun b => if b = a then w else st.word b }

/-- The store with zeros in a stretch. -/
def clear (st : Store) (block : Block) : Store := { st with word := fun a => if block.holds a then 0 else st.word a }

/-- The store with the values of variables from an address. -/
def putVars (st : Store) (start : Word) : List (Var × Word) → Store
  | [] => st
  | (v, w) :: vars => (st.put (start + UInt32.ofNat v.offset) w).putVars start vars

end Store

/-! ## Functions at work -/

/-- A function at work. -/
structure Activation where
  scope : Scope
  self : Signature
  /-- The stack pointer. -/
  sp : Word
  /-- Where the result goes, if anywhere. -/
  result? : Option Word
  /-- The frames of the functions that wait for this one. -/
  waiting : List Block

namespace Activation

/-- Where the variables of the function start. -/
def start (c : Activation) : Word := if c.self.isEntry then c.sp else c.sp + UInt32.ofNat Site.linkArea

/-- The variables of the function. -/
def frame (c : Activation) : Block := ⟨c.start.toNat, c.self.frame.size⟩

/-- The global variables. -/
def globals (c : Activation) : Block := ⟨c.scope.map.globalBase.toNat, (c.scope.globals?.getD {}).size⟩

/-- The objects of the heap. -/
def heap (c : Activation) (st : Store) : Block :=
  ⟨c.scope.map.heapBase.toNat, st.next.toNat - c.scope.map.heapBase.toNat⟩

/-- Whether the word at an address is the program's. -/
def reaches (c : Activation) (st : Store) (a : Word) : Bool :=
  a % 4 = 0 && (c.globals :: c.heap st :: c.frame :: c.waiting).any (·.holds a)

/-- The word at an address. -/
def load? (c : Activation) (st : Store) (a : Word) : Option Word := if c.reaches st a then some (st.word a) else none

/-- The store with a word changed. -/
def store? (c : Activation) (st : Store) (a w : Word) : Option Store := if c.reaches st a then some (st.put a w) else none

/-- The type and the address of a variable.  A variable of the frame hides a global one. -/
def named? (c : Activation) (name : String) : Option (Ty × Word) :=
  match c.self.frame.find? name, c.scope.global? name with
  | some v, _ => some (v.ty, c.start + UInt32.ofNat v.offset)
  | none, some v => some (v.ty, c.scope.map.globalBase + UInt32.ofNat v.offset)
  | none, none => none

/-! ### Steps of places -/

/-- The type and the address of the elements of an array, or of those that a pointer points at. -/
def elements? (c : Activation) (st : Store) : Ty × Word → Option (Ty × Word)
  | (.array elem _, a) => some (elem, a)
  | (.pointer target, a) => do return (target, ← c.load? st a)
  | _ => none

/-- The type and the address of an element. -/
def element? (c : Activation) (first : Ty × Word) (i : Word) : Option (Ty × Word) := do
  let size ← (c.scope.types.sizeOf first.1).toOption
  return (first.1, first.2 + i * UInt32.ofNat size)

/-- The type and the address of a field. -/
def field? (c : Activation) (name : String) : Ty × Word → Option (Ty × Word)
  | (.struct owner, a) => do
    let field ← (c.scope.types.field owner name).toOption
    return (field.ty, a + UInt32.ofNat field.offset)
  | _ => none

/-- The type and the address that a pointer points at. -/
def target? (c : Activation) (st : Store) : Ty × Word → Option (Ty × Word)
  | (.pointer target, a) => do return (target, ← c.load? st a)
  | _ => none

/-! ### Calls -/

/-- The bytes that a call of a function takes from the stack. -/
def need (callee : Signature) : Nat := callee.frame.size + Site.linkArea

/-- The function that a call sets to work. -/
def callee (c : Activation) (self : Signature) (result? : Option Word) : Activation :=
  { c with self, result?, sp := c.sp - UInt32.ofNat (need self), waiting := c.frame :: c.waiting }

/-- The store in which a function starts: its frame is zero but for the arguments. -/
def enter (c : Activation) (st : Store) (args : List Word) : Store :=
  (st.clear c.frame).putVars c.start (c.self.params.zip args)

end Activation

/-! ## Expressions and places -/

mutual

/-- The type and the value of an expression. -/
def Expr.eval (c : Activation) (st : Store) : Expr → Option (Ty × Word)
  | .number value isUnsigned => some (.scalar (if isUnsigned then .uint else .int), UInt32.ofNat value)
  | .bool value => some (.scalar .bool, Word.ofBool value)
  | .char value => some (.scalar .char, UInt32.ofNat value.toNat)
  | .place p => do
    let (ty, a) ← p.find c st
    return (ty, ← c.load? st a)
  | .unary op operand => do
    let (ty, w) ← operand.eval c st
    return (ty, ← op.value? w)
  | .binary op left right => do
    let (ty, a) ← left.eval c st
    let (_, b) ← right.eval c st
    return (op.resultTy ty, ← op.value? ty a b)

/-- The type and the address of a place. -/
def Place.find (c : Activation) (st : Store) : Place → Option (Ty × Word)
  | .var name => c.named? name
  | .index base i => do
    let first ← c.elements? st (← base.find c st)
    let (_, w) ← i.eval c st
    c.element? first w
  | .field base name => do c.field? name (← base.find c st)
  | .deref base => do c.target? st (← base.find c st)

end

/-! ## Statements -/

/-- What statements come to. -/
inductive Outcome where
  /-- The end of the row. -/
  | next (st : Store)
  /-- The end of the function. -/
  | back (st : Store)
  /-- The end of the program, with a signal. -/
  | stop (code : Word) (st : Store)
  /-- The fuel was used up. -/
  | timeout
  /-- Something that has no meaning, such as a stack or a heap that would leave the range of 32 bits. -/
  | stuck

namespace Outcome

/-- What follows at the end of the row. -/
def andThen (o : Outcome) (f : Store → Outcome) : Outcome :=
  match o with
  | next st => f st
  | o => o

/-- What a called function comes to, for its caller. -/
def returned : Outcome → Outcome
  | back st => next st
  | o => o

/-- What follows a value, if there is one. -/
def given {α : Type} (value? : Option α) (f : α → Outcome) : Outcome :=
  match value? with
  | some a => f a
  | none => stuck

end Outcome

open Outcome (given)

/-- Leaves a function.  The first function ends the program, another one stores its result where it goes. -/
def Activation.leave (c : Activation) (st : Store) (value : Option Expr) : Outcome :=
  if c.self.isEntry then
    match value with
    | none => .stop (Word.ofImm Signal.exit) st
    | some e => given (e.eval c st) fun v => .stop v.2 st
  else
    match value with
    | none => .back st
    | some e => given (e.eval c st) fun v =>
      match c.result? with
      | none => .back st
      | some a => given (c.store? st a v.2) .back

/-- Makes a new object and stores its address at a place. -/
def Activation.create (c : Activation) (st : Store) (target : Place) (ty : Ty) : Outcome :=
  match ty with
  | .pointer elem =>
    given (c.scope.types.sizeOf elem).toOption fun size => given (target.find c st) fun dst =>
      given (c.store? st dst.2 st.next) fun st =>
        let next := st.next.toNat + size
        if addressSpace ≤ next then .stuck
        else if c.scope.map.heapLimit.toNat < next then .stop (Word.ofImm Signal.heapLimit) st
        else .next { st.clear ⟨st.next.toNat, size⟩ with next := UInt32.ofNat next }
  | _ => .stuck

/-- Calls a function.  The place for the result is found first, then the arguments are computed from left to right. -/
def Activation.call (p : Program) (run : Activation → Store → List Stmt → Outcome) (c : Activation) (st : Store)
    (callee : Call) (target : Option Place) : Outcome :=
  given (c.scope.function? callee.name) fun self => given (p.functions.find? (·.name = callee.name)) fun f =>
    given (target.mapM fun place => (place.find c st).map (·.2)) fun result? =>
      given (callee.args.mapM fun e => (e.eval c st).map (·.2)) fun args =>
        let d := c.callee self result?
        if c.sp.toNat < need self then .stuck
        else if d.sp < c.scope.map.stackLimit then .stop (Word.ofImm Signal.stackLimit) st
        else (run d (d.enter st args) f.body).returned

/-- Carries out a statement, given what rows of statements come to.  Copies from and to registers have no meaning. -/
def Stmt.exec (p : Program) (run : Activation → Store → List Stmt → Outcome) (c : Activation) (st : Store) :
    Stmt → Outcome
  | .while cond body => given (cond.eval c st) fun v =>
    if v.2 = 0 then .next st else (run c st body).andThen fun st => run c st [.while cond body]
  | .ifThen cond body => given (cond.eval c st) fun v => if v.2 = 0 then .next st else run c st body
  | .ifElse cond body other => given (cond.eval c st) fun v => if v.2 = 0 then run c st other else run c st body
  | .return value => c.leave st value
  | .toGpr .. | .fromGpr .. => .stuck
  | .call callee => c.call p run st callee none
  | .assign target (.call callee) => c.call p run st callee (some target)
  | .assign target (.new ty) => c.create st target ty
  | .assign target (.expr e) => given (e.eval c st) fun v => given (target.find c st) fun dst =>
    given (c.store? st dst.2 v.2) .next

/-- Carries out a row of statements with so much fuel. -/
def runStmts (p : Program) : Nat → Activation → Store → List Stmt → Outcome
  | 0, _, _, _ => .timeout
  | _ + 1, _, st, [] => .next st
  | fuel + 1, c, st, s :: rest => (s.exec p (runStmts p fuel) c st).andThen fun st => runStmts p fuel c st rest

/-! ## Programs -/

/-- The first function of a program at work. -/
def Scope.entry (scope : Scope) (self : Signature) : Activation :=
  { scope, self, sp := scope.map.stackTop - UInt32.ofNat self.frame.size, result? := none, waiting := [] }

/-- The store in which a program starts. -/
def Scope.emptyStore (scope : Scope) : Store := ⟨fun _ => 0, scope.map.heapBase⟩

/-- What a program comes to with so much fuel.  One that falls off its end ends well. -/
def Program.outcome (p : Program) (scope : Scope) (fuel : Nat) : Outcome :=
  given (scope.function? entryName) fun self => given (p.functions.find? (·.name = entryName)) fun f =>
    let c := scope.entry self
    if scope.map.stackTop.toNat < self.frame.size then .stuck
    else if c.sp < scope.map.stackLimit then .stop (Word.ofImm Signal.stackLimit) scope.emptyStore
    else (runStmts p fuel c scope.emptyStore f.body).andThen fun st => .stop (Word.ofImm Signal.exit) st

end M32.Lang
