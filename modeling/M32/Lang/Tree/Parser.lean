/-
  Reading trees from tokens.

  1. `Parse` takes a value off the front of a token list.  Where the tokens do not go on it gives the tokens from there
     on, so an error knows the first token that does not fit, or that the text has ended.
  2. Types, expressions, statements and definitions follow, each after its rule.  The operators between two operands
     stand in tiers that bind more and more tightly; all tiers group to the left, and comparisons take two operands only.
  3. `Program.ofTokens` reads definitions up to the first error.

  No rule takes more steps than there are tokens, so `room`, one more than their number, bounds every repetition.
-/
import M32.Lang.Token.Lexer
import M32.Lang.Tree

namespace M32.Lang

/-! ## Taking tokens -/

/-- Where a text does not go on: the tokens from there to its end. -/
structure SyntaxError where
  rest : List Token

/-- The token that does not fit; none if the text ends too early. -/
def SyntaxError.found? (e : SyntaxError) : Option Token := e.rest.head?

/-- Takes a value off the front of a token list. -/
abbrev Parse (α : Type) := StateT (List Token) (Except SyntaxError) α

namespace Parse

variable {α : Type}

/-- The tokens do not go on here. -/
def stuck : Parse α := fun ts => .error ⟨ts⟩

/-- The kind of the token `n` places on. -/
def peek? (n : Nat) : Parse (Option TokenKind) := fun ts => .ok (ts[n]?.map Token.kind, ts)

/-- Drops a token. -/
def skip : Parse Unit := fun ts => .ok ((), ts.tail)

/-- Takes a token of a kind, if one comes next. -/
def accept? (isKind : TokenKind → Bool) : Parse (Option Token)
  | t :: ts => if isKind t.kind then .ok (some t, ts) else .ok (none, t :: ts)
  | [] => .ok (none, [])

/-- Takes a token, which has to be of a kind. -/
def require (isKind : TokenKind → Bool) : Parse Token
  | t :: ts => if isKind t.kind then .ok (t, ts) else .error ⟨t :: ts⟩
  | [] => .error ⟨[]⟩

/-- Whether a symbol comes next. -/
def sees (s : Symbol) : Parse Bool := return (← peek? 0) = some (.symbol s)

/-- Takes a symbol, if it comes next, and says whether it did. -/
def takes (s : Symbol) : Parse Bool := return (← accept? (· = .symbol s)).isSome

/-- Takes a keyword, if it comes next, and says whether it did. -/
def takesWord (k : Keyword) : Parse Bool := return (← accept? (· = .keyword k)).isSome

/-- Takes a symbol. -/
def symbol (s : Symbol) : Parse Unit := do let _ ← require (· = .symbol s)

/-- Takes a keyword. -/
def word (k : Keyword) : Parse Unit := do let _ ← require (· = .keyword k)

/-- Takes a name. -/
def ident : Parse String
  | ⟨.ident name, _⟩ :: ts => .ok (name, ts)
  | ts => .error ⟨ts⟩

/-- Takes a number that is not marked as unsigned. -/
def number : Parse Nat
  | ⟨.number _ value false, _⟩ :: ts => .ok (value, ts)
  | ts => .error ⟨ts⟩

/-! ## Repetition -/

/-- Takes values as long as `step` gives one. -/
def many (step : Parse (Option α)) : (room : Nat) → Parse (List α)
  | 0 => pure []
  | room + 1 => do
    match ← step with
    | none => return []
    | some a => return a :: (← many step room)

/-- Builds on a value as long as `step` does. -/
def extend (step : α → Parse (Option α)) : (room : Nat) → α → Parse α
  | 0, a => pure a
  | room + 1, a => do
    match ← step a with
    | none => return a
    | some b => extend step room b

/-- Values up to a closing symbol, which is left. -/
def upTo (room : Nat) (close : Symbol) (elem : Parse α) : Parse (List α) :=
  many (do if ← sees close then return none else return some (← elem)) room

/-- Values with commas between them up to a closing symbol, which is left. -/
def commaList (room : Nat) (close : Symbol) (elem : Parse α) : Parse (List α) := do
  if ← sees close then return []
  let first ← elem
  return first :: (← many (do if ← takes .comma then return some (← elem) else return none) room)

/-! ## Types -/

/-- The scalar type of a keyword. -/
def scalar? : Keyword → Option Scalar
  | .int => some .int
  | .uint => some .uint
  | .bool => some .bool
  | .char => some .char
  | _ => none

/-- A scalar type or a struct. -/
def baseTy : Parse Ty := do
  match ← peek? 0 with
  | some (.keyword .struct) =>
    skip
    return .struct (← ident)
  | some (.keyword k) =>
    match scalar? k with
    | some s =>
      skip
      return .scalar s
    | none => stuck
  | _ => stuck

/-- One `*` or one length in brackets after a type. -/
def tyStep (ty : Ty) : Parse (Option Ty) := do
  if ← takes .star then return some (.pointer ty)
  if ← takes .lbracket then
    let length ← number
    symbol .rbracket
    return some (.array ty length)
  return none

/-- A type: a base and any number of `*` and lengths in brackets. -/
def ty (room : Nat) : Parse Ty := do extend tyStep room (← baseTy)

/-- A type and a name. -/
def decl (room : Nat) : Parse Decl := do
  let ty ← ty room
  return ⟨ty, ← ident⟩

/-- A type, a name and a semicolon. -/
def closedDecl (room : Nat) : Parse Decl := do
  let d ← decl room
  symbol .semicolon
  return d

/-! ## Expressions -/

/-- Operators that bind alike.  Those that repeat group to the left; the others take two operands only. -/
structure Tier where
  ops : List BinaryOp
  repeats : Bool

/-- The tiers, those that bind loosely first. -/
def tiers : List Tier :=
  [⟨[.or], true⟩, ⟨[.and], true⟩, ⟨[.eq, .ne], true⟩, ⟨[.lt, .gt, .le, .ge], false⟩, ⟨[.add, .sub], true⟩,
    ⟨[.mul, .div], true⟩]

/-- The operator of a tier that a token stands for. -/
def Tier.op? (t : Tier) (k : TokenKind) : Option BinaryOp := t.ops.find? fun op => k = .symbol op.symbol

/-- An operator of a tier and its right operand after the left one. -/
def Tier.step (t : Tier) (operand : Parse Expr) (left : Expr) : Parse (Option Expr) := do
  match (← peek? 0).bind t.op? with
  | some op =>
    skip
    return some (.binary op left (← operand))
  | none => return none

/-- Operands with operators of a tier between them. -/
def Tier.chain (room : Nat) (t : Tier) (operand : Parse Expr) : Parse Expr := do
  extend (t.step operand) (if t.repeats then room else 1) (← operand)

/-- Operands with operators of several tiers between them. -/
def chains (room : Nat) (ts : List Tier) (operand : Parse Expr) : Parse Expr :=
  ts.foldr (fun t inner => t.chain room inner) operand

/-- An index, a field or `@` after a place. -/
def placeStep (expr : Parse Expr) (p : Place) : Parse (Option Place) := do
  if ← takes .lbracket then
    let i ← expr
    symbol .rbracket
    return some (.index p i)
  if ← takes .period then return some (.field p (← ident))
  if ← takes .deref then return some (.deref p)
  return none

/-- A place whose indices are read by `expr`. -/
def placeOf (room : Nat) (expr : Parse Expr) : Parse Place := do extend (placeStep expr) room (.var (← ident))

/-- A sign and its operand, or an operand: a literal, a place or an expression in parentheses. -/
def operand (room : Nat) : (depth : Nat) → Parse Expr
  | 0 => stuck
  | depth + 1 => do
    match ← peek? 0 with
    | some (.symbol .bang) =>
      skip
      return .unary .not (← operand room depth)
    | some (.symbol .minus) =>
      skip
      return .unary .neg (← operand room depth)
    | some (.symbol .lparen) =>
      skip
      let e ← chains room tiers (operand room depth)
      symbol .rparen
      return e
    | some (.number _ value isUnsigned) =>
      skip
      return .number value isUnsigned
    | some (.keyword .true) =>
      skip
      return .bool true
    | some (.keyword .false) =>
      skip
      return .bool false
    | some (.char value) =>
      skip
      return .char value
    | some (.ident _) => return .place (← placeOf room (chains room tiers (operand room depth)))
    | _ => stuck

/-- An expression. -/
def expr (room : Nat) : Parse Expr := chains room tiers (operand room room)

/-- A place. -/
def place (room : Nat) : Parse Place := placeOf room (expr room)

/-! ## Statements -/

/-- A name and arguments in parentheses. -/
def call (room : Nat) : Parse Call := do
  let name ← ident
  symbol .lparen
  let args ← commaList room .rparen (expr room)
  symbol .rparen
  return ⟨name, args⟩

/-- A general register. -/
def gpr : Parse Nat := do
  word .gpr
  symbol .lparen
  let reg ← number
  symbol .rparen
  return reg

/-- The registers that a statement spares, if it names any. -/
def spared (room : Nat) : Parse (List Nat) := do
  if ← takesWord .except then
    symbol .lparen
    let regs ← commaList room .rparen number
    symbol .rparen
    return regs
  else return []

/-- Whether a name and an opening parenthesis come next. -/
def seesCall : Parse Bool := do
  match ← peek? 0, ← peek? 1 with
  | some (.ident _), some (.symbol .lparen) => return true
  | _, _ => return false

/-- What stands after a place and `=`. -/
def assigned (room : Nat) (target : Place) : Parse Stmt := do
  if (← peek? 0) = some (.keyword .gpr) then
    let reg ← gpr
    return .fromGpr target reg (← spared room)
  if ← takesWord .new then return .assign target (.new (← ty room))
  if ← seesCall then return .assign target (.call (← call room))
  return .assign target (.expr (← expr room))

/-- Statements in braces. -/
def blockOf (room : Nat) (stmt : Parse Stmt) : Parse (List Stmt) := do
  symbol .lcurly
  let body ← upTo room .rcurly stmt
  symbol .rcurly
  return body

/-- A statement without the semicolon that may follow it. -/
def openStmt (room : Nat) (stmt : Parse Stmt) : Parse Stmt := do
  match ← peek? 0 with
  | some (.keyword .while) =>
    skip
    let cond ← expr room
    return .while cond (← blockOf room stmt)
  | some (.keyword .if) =>
    skip
    let cond ← expr room
    let body ← blockOf room stmt
    if ← takesWord .else then return .ifElse cond body (← blockOf room stmt) else return .ifThen cond body
  | some (.keyword .return) =>
    skip
    if (← sees .semicolon) || (← sees .rcurly) then return .return none else return .return (some (← expr room))
  | some (.keyword .gpr) =>
    let reg ← gpr
    symbol .assign
    let source ← place room
    return .toGpr reg source (← spared room)
  | some (.ident _) =>
    if ← seesCall then return .call (← call room)
    let target ← place room
    symbol .assign
    assigned room target
  | _ => stuck

/-- A statement, with a semicolon or without. -/
def stmt (room : Nat) : (depth : Nat) → Parse Stmt
  | 0 => stuck
  | depth + 1 => do
    let s ← openStmt room (stmt room depth)
    let _ ← takes .semicolon
    return s

/-! ## Definitions -/

/-- A struct, with a semicolon or without. -/
def structDef (room : Nat) : Parse Def := do
  word .struct
  let name ← ident
  symbol .lcurly
  let fields ← upTo room .rcurly (closedDecl room)
  symbol .rcurly
  let _ ← takes .semicolon
  return .struct name fields

/-- Whether a token that opens a type comes next. -/
def seesTy : Parse Bool := return ((← peek? 0).map TokenKind.opensType).getD false

/-- What stands after the result and the name of a function. -/
def functionDef (room : Nat) (result : Option Ty) (name : String) : Parse Def := do
  symbol .lparen
  let params ← commaList room .rparen (decl room)
  symbol .rparen
  symbol .lcurly
  let locals ← many (do if ← seesTy then return some (← closedDecl room) else return none) room
  let body ← upTo room .rcurly (stmt room room)
  symbol .rcurly
  return .function ⟨name, result, params, locals, body⟩

/-- A struct, a global variable or a function. -/
def definition (room : Nat) : Parse Def := do
  if (← peek? 0) = some (.keyword .struct) && (← peek? 2) = some (.symbol .lcurly) then structDef room
  else if ← takesWord .void then
    let name ← ident
    functionDef room none name
  else
    let ty ← ty room
    let name ← ident
    if ← sees .lparen then functionDef room (some ty) name
    else
      symbol .semicolon
      return .global ⟨ty, name⟩

/-- Definitions up to the end or the first error. -/
def definitions (room : Nat) : (count : Nat) → List Token → List Def × Option SyntaxError
  | 0, _ => ([], none)
  | _, [] => ([], none)
  | count + 1, ts => match definition room ts with
    | .error e => ([], some e)
    | .ok (d, rest) =>
      let (ds, e) := definitions room count rest
      (d :: ds, e)

end Parse

/-! ## Texts -/

/-- The tokens that count: all but comments. -/
def withoutComments (ts : List Token) : List Token := ts.filter fun t => !t.kind.isComment

/-- The tokens of a text that count. -/
def codeTokens (file : String) (cs : List Char) : List Token := withoutComments (tokens file cs)

/-- The definitions before the first error, and that error. -/
def Program.ofTokens (ts : List Token) : Program × Option SyntaxError :=
  let room := ts.length + 1
  let (defs, e) := Parse.definitions room room ts
  (⟨defs⟩, e)

/-- The program of a text. -/
def Program.ofText (file : String) (cs : List Char) : Except SyntaxError Program :=
  match Program.ofTokens (codeTokens file cs) with
  | (p, none) => .ok p
  | (_, some e) => .error e

/-- The expression at the front of a token list. -/
def Expr.ofTokens (ts : List Token) : Except SyntaxError (Expr × List Token) := Parse.expr (ts.length + 1) ts

end M32.Lang
