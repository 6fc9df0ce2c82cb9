/-
  What the names of a program mean.

  `Scope.collect` goes through the definitions in order and keeps the structs, the row of globals and the frame of
  each function: its parameters and then its locals.  It stops at the first fault, with what it knows by then.
  A program needs a function `main`, with which it starts.
-/
import M32.Lang.Layout
import M32.MemoryMap

namespace M32.Lang

/-! ## Functions -/

/-- A function as its callers know it. -/
structure Signature where
  name : String
  result : Option Ty
  /-- Parameters and then locals. -/
  frame : Layout
  /-- The number of parameters. -/
  arity : Nat
  deriving DecidableEq, Repr

/-- The name of the function with which a program starts. -/
def entryName : String := "main"

namespace Signature

/-- Whether a program starts with the function. -/
def isEntry (f : Signature) : Bool := f.name = entryName

/-- The parameters. -/
def params (f : Signature) : List Var := f.frame.vars.take f.arity

/-- Where the locals start and how many bytes they take, if they take any. -/
def locals? (f : Signature) : Option (Nat × Nat) :=
  (f.frame.vars[f.arity]?).bind fun v => if v.offset < f.frame.size then some (v.offset, f.frame.size - v.offset) else none

end Signature

/-! ## Scopes -/

/-- The names of a program and the memory that it runs in. -/
structure Scope where
  map : MemoryMap := {}
  types : TypeTable := {}
  functions : List Signature := []
  globals? : Option Layout := none
  deriving DecidableEq, Repr

namespace Scope

/-- The function of a name, if there is one. -/
def function? (s : Scope) (name : String) : Option Signature := s.functions.find? (·.name = name)

/-- The function of a name. -/
def function (s : Scope) (name : String) : Except Fault Signature :=
  match s.function? name with
  | some f => .ok f
  | none => .error (.undefinedFunction name)

/-- The global variable of a name. -/
def global? (s : Scope) (name : String) : Option Var := s.globals?.bind (·.find? name)

/-- Adds a struct: its name first, so that its fields may point at it. -/
def addStruct (s : Scope) (name : String) (fields : List Decl) : Scope × Option Fault :=
  match s.types.declare name with
  | .error fault => (s, some fault)
  | .ok types => match types.define name fields with
    | .error fault => ({ s with types }, some fault)
    | .ok types => ({ s with types }, none)

/-- Adds variables to a row, each of which is too large on its own account. -/
def extend (s : Scope) (l : Layout) (ds : List Decl) : Except Fault Layout := s.types.extend Decl.name l ds

/-- Adds a global variable. -/
def addGlobal (s : Scope) (d : Decl) : Scope × Option Fault :=
  let globals := s.globals?.getD {}
  match s.extend globals [d] with
  | .error fault => ({ s with globals? := some globals }, some fault)
  | .ok globals => ({ s with globals? := some globals }, none)

/-- The signature of a function. -/
def signature (s : Scope) (f : Function) : Except Error Signature := do
  if (s.function? f.name).isSome then throw (.ofFault (.redefined f.name))
  if let some fault := f.result.bind s.types.unknown? then throw (.ofFault fault)
  match s.extend {} (f.params ++ f.locals) with
  | .error fault => .error ⟨some f.name, fault⟩
  | .ok frame => return ⟨f.name, f.result, frame, f.params.length⟩

/-- Adds a definition. -/
def add (s : Scope) : Def → Scope × Option Error
  | .struct name fields =>
    let (s, fault?) := s.addStruct name fields
    (s, fault?.map .ofFault)
  | .global d =>
    let (s, fault?) := s.addGlobal d
    (s, fault?.map .ofFault)
  | .function f => match s.signature f with
    | .error e => (s, some e)
    | .ok f => ({ s with functions := s.functions ++ [f] }, none)

/-- Adds definitions up to the first that is refused. -/
def addAll (s : Scope) : List Def → Scope × Option Error
  | [] => (s, none)
  | d :: ds => match s.add d with
    | (s, some e) => (s, some e)
    | (s, none) => s.addAll ds

/-- What the names of a program mean, and what is wrong with it. -/
def collect (map : MemoryMap) (p : Program) : Scope × Option Error :=
  match ({ map } : Scope).addAll p.defs with
  | (s, some e) => (s, some e)
  | (s, none) => if (s.function? entryName).isSome then (s, none) else (s, some (.ofFault .noMain))

/-- What the names of a program mean. -/
def ofProgram (map : MemoryMap) (p : Program) : Except Error Scope :=
  match collect map p with
  | (s, none) => .ok s
  | (_, some e) => .error e

end Scope

end M32.Lang
