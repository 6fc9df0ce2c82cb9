/-
  How expressions and statements are written.

  Every operation between two operands stands in parentheses, so that the text shows the tree.  Statements are
  written for messages: what a loop or a branch holds is left out.
-/
import M32.Lang.Tree
import M32.Text.Columns
import M32.Text.Quoted

namespace M32.Lang

/-! ## Expressions -/

mutual

/-- An expression. -/
def Expr.text : Expr → String
  | .binary op left right => "(" ++ left.text ++ " " ++ op.text ++ " " ++ right.text ++ ")"
  | .unary op operand => op.text ++ operand.text
  | .number value isUnsigned => toString value ++ (if isUnsigned then "u" else "")
  | .bool value => toString value
  | .char value => Text.quotedChar value
  | .place p => p.text

/-- A place. -/
def Place.text : Place → String
  | .var name => name
  | .index base i => base.text ++ "[" ++ i.text ++ "]"
  | .field base name => base.text ++ "." ++ name
  | .deref base => base.text ++ "@"

end

/-! ## Statements -/

/-- Texts with commas between them. -/
def commas (texts : List String) : String := Text.join ", " texts

/-- A call. -/
def Call.text (c : Call) : String := c.name ++ "(" ++ commas (c.args.map Expr.text) ++ ")"

/-- What is assigned. -/
def Source.text : Source → String
  | .call c => c.text
  | .new ty => "new " ++ ty.text
  | .expr e => e.text

/-- The registers that a statement spares. -/
def sparedText (regs : List Nat) : String :=
  if regs.isEmpty then "" else " except(" ++ commas (regs.map toString) ++ ")"

/-- A general register as a statement names it. -/
def gprText (reg : Nat) : String := "gpr(" ++ toString reg ++ ")"

/-- What stands for the statements inside a loop or a branch. -/
def elided : String := "\x7b .. \x7d"

/-- The head of a statement. -/
def Stmt.text : Stmt → String
  | .while cond _ => "while " ++ cond.text ++ " " ++ elided
  | .ifThen cond _ => "if " ++ cond.text ++ " " ++ elided
  | .ifElse cond _ _ => "if " ++ cond.text ++ " " ++ elided ++ " else " ++ elided
  | .return (some value) => "return " ++ value.text
  | .return none => "return"
  | .toGpr reg source spared => gprText reg ++ " = " ++ source.text ++ sparedText spared
  | .fromGpr target reg spared => target.text ++ " = " ++ gprText reg ++ sparedText spared
  | .call c => c.text
  | .assign target source => target.text ++ " = " ++ source.text

end M32.Lang
