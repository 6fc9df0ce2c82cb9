/-
  Programs as trees.

  1. `Ty` is a type.  Structs are known by name, and a name stands for one struct, so types are equal when they are
     written alike.
  2. `Expr` and `Place` are expressions and the places they read.  A place is a variable followed by indices, fields
     and `@`, the last step outermost: `a[i].f@` is `deref (field (index (var a) i) f)`.
  3. `Stmt`, `Def` and `Program` are statements, definitions and whole programs.
-/
import M32.Lang.Token
import M32.Scalar

namespace M32.Lang

/-! ## Types -/

/-- Types. -/
inductive Ty where
  | scalar (s : Scalar)
  | struct (name : String)
  | pointer (target : Ty)
  | array (elem : Ty) (length : Nat)
  deriving DecidableEq, Repr

namespace Ty

/-- How a type is written. -/
def text : Ty → String
  | scalar s => s.name
  | struct name => "struct " ++ name
  | pointer target => target.text ++ "*"
  | array elem length => elem.text ++ "[" ++ toString length ++ "]"

/-- Whether a value of the type fills one register. -/
def isWord : Ty → Bool
  | scalar _ | pointer _ => true
  | struct _ | array .. => false

end Ty

/-! ## Expressions -/

/-- Operators between two operands. -/
inductive BinaryOp where
  | or | and | eq | ne | lt | gt | le | ge | add | sub | mul | div
  deriving DecidableEq, Repr

namespace BinaryOp

/-- The token of an operator. -/
def symbol : BinaryOp → Symbol
  | or => .orOr
  | and => .andAnd
  | eq => .eqEq
  | ne => .notEq
  | lt => .less
  | gt => .greater
  | le => .leq
  | ge => .geq
  | add => .plus
  | sub => .minus
  | mul => .star
  | div => .slash

/-- How an operator is written. -/
def text (op : BinaryOp) : String := String.ofList op.symbol.spelling

end BinaryOp

/-- Operators before an operand. -/
inductive UnaryOp where
  | not | neg
  deriving DecidableEq, Repr

namespace UnaryOp

/-- The token of an operator. -/
def symbol : UnaryOp → Symbol
  | not => .bang
  | neg => .minus

/-- How an operator is written. -/
def text (op : UnaryOp) : String := String.ofList op.symbol.spelling

end UnaryOp

mutual

/-- Expressions. -/
inductive Expr where
  | binary (op : BinaryOp) (left right : Expr)
  | unary (op : UnaryOp) (operand : Expr)
  | number (value : Nat) (isUnsigned : Bool)
  | bool (value : Bool)
  | char (value : Char)
  | place (p : Place)

/-- Places: where a value is kept. -/
inductive Place where
  | var (name : String)
  | index (base : Place) (i : Expr)
  | field (base : Place) (name : String)
  | deref (base : Place)

end

/-! ## Statements and definitions -/

/-- A function and its arguments. -/
structure Call where
  name : String
  args : List Expr

/-- What is assigned to a place. -/
inductive Source where
  | call (c : Call)
  | new (ty : Ty)
  | expr (e : Expr)

/-- Statements.  `toGpr` copies a place to a general register and `fromGpr` copies the other way; both name the
    registers that they leave alone. -/
inductive Stmt where
  | while (cond : Expr) (body : List Stmt)
  | ifThen (cond : Expr) (body : List Stmt)
  | ifElse (cond : Expr) (body other : List Stmt)
  | return (value : Option Expr)
  | toGpr (reg : Nat) (source : Place) (spared : List Nat)
  | fromGpr (target : Place) (reg : Nat) (spared : List Nat)
  | call (c : Call)
  | assign (target : Place) (source : Source)

/-- A typed name: a field, a parameter or a variable. -/
structure Decl where
  ty : Ty
  name : String
  deriving DecidableEq, Repr

/-- A function as written.  One without `result` gives no value. -/
structure Function where
  name : String
  result : Option Ty
  params : List Decl
  locals : List Decl
  body : List Stmt

/-- Definitions. -/
inductive Def where
  | struct (name : String) (fields : List Decl)
  | global (decl : Decl)
  | function (f : Function)

/-- A program. -/
structure Program where
  defs : List Def

/-- The functions of a program, in order. -/
def Program.functions (p : Program) : List Function :=
  p.defs.filterMap fun
    | .function f => some f
    | _ => none

end M32.Lang
