/-
  Where variables and fields lie.

  1. `Layout` is a row of variables without gaps: each starts where the one before it ends, and the row fits
     the 32-bit address space.
  2. `TypeTable` knows the structs.  A struct is declared before its fields are read, so that a field may point at it;
     it has a size only when its layout is complete, so no struct lies within itself.
-/
import M32.Lang.Error
import M32.Lang.Tree

namespace M32.Lang

/-! ## Rows of variables -/

/-- A variable or a field, and its distance from the start of its row. -/
structure Var where
  name : String
  ty : Ty
  offset : Nat
  deriving DecidableEq, Repr

/-- Variables one after the other. -/
structure Layout where
  vars : List Var := []
  size : Nat := 0
  deriving DecidableEq, Repr

/-- The number of bytes that can be addressed. -/
def addressSpace : Nat := 0x100000000

/-- The number of bytes in a word. -/
def wordSize : Nat := 4

namespace Layout

/-- The variable of a name. -/
def find? (l : Layout) (name : String) : Option Var := l.vars.find? (·.name = name)

/-- Adds a variable of a type with a known size.  `whole` is what gets too large. -/
def push (l : Layout) (d : Decl) (size : Nat) (whole : String) : Except Fault Layout :=
  if (l.find? d.name).isSome then .error (.redefined d.name)
  else if l.size + size < addressSpace then .ok ⟨l.vars ++ [⟨d.name, d.ty, l.size⟩], l.size + size⟩
  else .error (.tooLarge whole)

end Layout

/-! ## Structs -/

/-- A struct.  It has no layout while its fields are being read. -/
structure Struct where
  name : String
  layout? : Option Layout
  deriving DecidableEq, Repr

/-- The fields of a struct. -/
def Struct.fields (s : Struct) : List Var := (s.layout?.map Layout.vars).getD []

/-- The structs of a program, in the order of their declarations. -/
structure TypeTable where
  structs : List Struct := []
  deriving DecidableEq, Repr

namespace TypeTable

/-- The struct of a name. -/
def find? (t : TypeTable) (name : String) : Option Struct := t.structs.find? (·.name = name)

/-- The first struct that a type names without its being declared. -/
def unknown? (t : TypeTable) : Ty → Option Fault
  | .scalar _ => none
  | .pointer target => t.unknown? target
  | .array elem _ => t.unknown? elem
  | .struct name => if (t.find? name).isSome then none else some (.unknownType (Ty.struct name).text)

/-- The number of bytes of a value. -/
def sizeOf (t : TypeTable) : Ty → Except Fault Nat
  | .scalar _ | .pointer _ => .ok wordSize
  | .array elem length => do
    let size ← t.sizeOf elem
    if length < addressSpace && size * length < addressSpace then .ok (size * length)
    else .error (.tooLarge (Ty.array elem length).text)
  | .struct name => match t.find? name with
    | none => .error (.unknownType (Ty.struct name).text)
    | some s => match s.layout? with
      | some l => .ok l.size
      | none => .error (.recursiveStruct name)

/-- Whether a type names declared structs only. -/
def check (t : TypeTable) (ty : Ty) : Except Fault Unit :=
  match t.unknown? ty with
  | some fault => .error fault
  | none => .ok ()

/-- Adds variables to a row.  `whole` names what gets too large at a variable. -/
def extend (t : TypeTable) (whole : Decl → String) : Layout → List Decl → Except Fault Layout
  | l, [] => .ok l
  | l, d :: ds => do
    t.check d.ty
    let size ← t.sizeOf d.ty
    t.extend whole (← l.push d size (whole d)) ds

/-- Adds a struct without a layout. -/
def declare (t : TypeTable) (name : String) : Except Fault TypeTable :=
  if (t.find? name).isSome then .error (.redefined (Ty.struct name).text) else .ok ⟨t.structs ++ [⟨name, none⟩]⟩

/-- Gives a declared struct the layout of its fields. -/
def define (t : TypeTable) (name : String) (fields : List Decl) : Except Fault TypeTable := do
  let layout ← t.extend (fun _ => (Ty.struct name).text) {} fields
  return ⟨t.structs.map fun s => if s.name = name then { s with layout? := some layout } else s⟩

/-- The field of a name in a declared struct. -/
def field (t : TypeTable) (owner name : String) : Except Fault Var :=
  let fields := ((t.find? owner).map Struct.fields).getD []
  match fields.find? (·.name = name) with
  | some v => .ok v
  | none => .error (.noSuchField (Ty.struct owner).text name)

/-- A struct may point at itself. -/
example : ((({} : TypeTable).declare "node").bind fun t =>
    t.define "node" [⟨.scalar .int, "value"⟩, ⟨.pointer (.struct "node"), "next"⟩, ⟨.array (.scalar .char) 3, "tag"⟩]).toOption
    = some ⟨[⟨"node", some ⟨[⟨"value", .scalar .int, 0⟩, ⟨"next", .pointer (.struct "node"), 4⟩,
        ⟨"tag", .array (.scalar .char) 3, 8⟩], 20⟩⟩]⟩ := by decide

end TypeTable

end M32.Lang
