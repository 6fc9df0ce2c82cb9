/-
  The grammar of the source language.

  A rule relates the tokens from the first one of a phrase on, the tokens after it, and its tree: `Rule`.  So a rule reads as
  its line of the grammar, with the tokens that it names in their places.
  1. `Many` is `{ x }`, `CommaList` is `[ x { "," x } ]`, `MaySemicolon` is `[ ";" ]`.
  2. `IsTy`, `IsParam` and `IsDecl` are types and typed names.
  3. `Derives` are expressions and places.  A `Layer` are the operators that bind alike; a layer derives what the next one
     inside derives, with its operators between.  They group to the left: the left operand is again of the layer.  Comparisons
     do not repeat.
  4. `Runs` are statements and blocks, `IsDef` and `IsProgram` what stands around them.  They are given a condition on what
     comes after a `return` without a value.  The grammar has none (`IsAny`).
  5. A phrase consists of tokens that are neither comments nor invalid, one at least (`Spans`).
-/
import M32.Lang.Tree

namespace M32.Lang.Grammar

/-- What starts at some tokens, the tokens that follow it, and its tree. -/
abbrev Rule (α : Type) := List Token → List Token → α → Prop

variable {α : Type}

/-! ## Repetition -/

/-- `{ x }` -/
inductive Many (R : Rule α) : Rule (List α)
  | nil {ts} : Many R ts ts []
  | cons {ts mid rest a as} : R ts mid a → Many R mid rest as → Many R ts rest (a :: as)

/-- `"," x` -/
inductive AfterComma (R : Rule α) : Rule α
  | mk {p ts rest a} : R ts rest a → AfterComma R (⟨.symbol .comma, p⟩ :: ts) rest a

/-- `[ x { "," x } ]` -/
inductive CommaList (R : Rule α) : Rule (List α)
  | nil {ts} : CommaList R ts ts []
  | cons {ts mid rest a as} : R ts mid a → Many (AfterComma R) mid rest as → CommaList R ts rest (a :: as)

/-- `[ ";" ]` -/
inductive MaySemicolon : List Token → List Token → Prop
  | without {ts} : MaySemicolon ts ts
  | semicolon {p ts} : MaySemicolon (⟨.symbol .semicolon, p⟩ :: ts) ts

/-! ## Types -/

/-- `number`, not marked as unsigned. -/
inductive IsNumber : Rule Nat
  | mk {lexeme value p rest} : IsNumber (⟨.number lexeme value false, p⟩ :: rest) rest value

/-- `type = ( "int" | "uint" | "bool" | "char" | "struct" ident ) { "*" | "[" number "]" }` -/
inductive IsTy : Rule Ty
  | int {p rest} : IsTy (⟨.keyword .int, p⟩ :: rest) rest (.scalar .int)
  | uint {p rest} : IsTy (⟨.keyword .uint, p⟩ :: rest) rest (.scalar .uint)
  | bool {p rest} : IsTy (⟨.keyword .bool, p⟩ :: rest) rest (.scalar .bool)
  | char {p rest} : IsTy (⟨.keyword .char, p⟩ :: rest) rest (.scalar .char)
  | struct {p q name rest} : IsTy (⟨.keyword .struct, p⟩ :: ⟨.ident name, q⟩ :: rest) rest (.struct name)
  | pointer {p ts rest t} : IsTy ts (⟨.symbol .star, p⟩ :: rest) t → IsTy ts rest (.pointer t)
  | array {p q ts len rest t n} : IsTy ts (⟨.symbol .lbracket, p⟩ :: len) t → IsNumber len (⟨.symbol .rbracket, q⟩ :: rest) n →
      IsTy ts rest (.array t n)

/-- `param = type ident` -/
inductive IsParam : Rule Decl
  | mk {p ts rest t name} : IsTy ts (⟨.ident name, p⟩ :: rest) t → IsParam ts rest ⟨t, name⟩

/-- `decl = type ident ";"` -/
inductive IsDecl : Rule Decl
  | mk {p ts rest d} : IsParam ts (⟨.symbol .semicolon, p⟩ :: rest) d → IsDecl ts rest d

/-! ## Expressions -/

/-- The levels at which operators bind, those that bind loosely first. -/
inductive Layer where
  | or | and | eq | relat | add | mul
  deriving DecidableEq, Repr

/-- The operators of a layer with their tokens. -/
def Layer.ops : Layer → List (Symbol × BinaryOp)
  | or => [(.orOr, .or)]
  | and => [(.andAnd, .and)]
  | eq => [(.eqEq, .eq), (.notEq, .ne)]
  | relat => [(.less, .lt), (.leq, .le), (.greater, .gt), (.geq, .ge)]
  | add => [(.plus, .add), (.minus, .sub)]
  | mul => [(.star, .mul), (.slash, .div)]

/-- What a phrase of an expression is, with its tree. -/
inductive Phrase where
  | layer (l : Layer) (e : Expr)
  | unary (e : Expr)
  | primary (e : Expr)
  | lvalue (x : Place)

/-- A tree as a phrase of the next layer inside. -/
def Layer.inner : Layer → Expr → Phrase
  | or => .layer .and
  | and => .layer .eq
  | eq => .layer .relat
  | relat => .layer .add
  | add => .layer .mul
  | mul => .unary

/-- Expressions:

    `or-expr = and-expr { "||" and-expr }`, and so for `and-expr`, `eq-expr`, `add-expr` and `mul-expr`,
    `relat-expr = add-expr [ ( "<" | "<=" | ">" | ">=" ) add-expr ]`,
    `unary-expr = ( "!" | "-" ) unary-expr | primary`,
    `primary = number [ "u" ] | "true" | "false" | char | lvalue | "(" expr ")"`,
    `lvalue = ident { "[" expr "]" | "." ident | "@" }`. -/
inductive Derives : Phrase → List Token → List Token → Prop
  | one {l e ts rest} : Derives (l.inner e) ts rest → Derives (.layer l e) ts rest
  | more {l s op a b p ts mid rest} : l ≠ .relat → (s, op) ∈ l.ops → Derives (.layer l a) ts (⟨.symbol s, p⟩ :: mid) →
      Derives (l.inner b) mid rest → Derives (.layer l (.binary op a b)) ts rest
  | two {s op a b p ts mid rest} : (s, op) ∈ Layer.relat.ops → Derives (.layer .add a) ts (⟨.symbol s, p⟩ :: mid) →
      Derives (.layer .add b) mid rest → Derives (.layer .relat (.binary op a b)) ts rest
  | not {e p ts rest} : Derives (.unary e) ts rest → Derives (.unary (.unary .not e)) (⟨.symbol .bang, p⟩ :: ts) rest
  | neg {e p ts rest} : Derives (.unary e) ts rest → Derives (.unary (.unary .neg e)) (⟨.symbol .minus, p⟩ :: ts) rest
  | primary {e ts rest} : Derives (.primary e) ts rest → Derives (.unary e) ts rest
  | number {lexeme value isUnsigned p rest} :
      Derives (.primary (.number value isUnsigned)) (⟨.number lexeme value isUnsigned, p⟩ :: rest) rest
  | true {p rest} : Derives (.primary (.bool true)) (⟨.keyword .true, p⟩ :: rest) rest
  | false {p rest} : Derives (.primary (.bool false)) (⟨.keyword .false, p⟩ :: rest) rest
  | char {c p rest} : Derives (.primary (.char c)) (⟨.char c, p⟩ :: rest) rest
  | place {x ts rest} : Derives (.lvalue x) ts rest → Derives (.primary (.place x)) ts rest
  | parens {e p q ts rest} : Derives (.layer .or e) ts (⟨.symbol .rparen, q⟩ :: rest) →
      Derives (.primary e) (⟨.symbol .lparen, p⟩ :: ts) rest
  | var {name p rest} : Derives (.lvalue (.var name)) (⟨.ident name, p⟩ :: rest) rest
  | index {x i p q ts mid rest} : Derives (.lvalue x) ts (⟨.symbol .lbracket, p⟩ :: mid) →
      Derives (.layer .or i) mid (⟨.symbol .rbracket, q⟩ :: rest) → Derives (.lvalue (.index x i)) ts rest
  | field {x name p q ts rest} : Derives (.lvalue x) ts (⟨.symbol .period, p⟩ :: ⟨.ident name, q⟩ :: rest) →
      Derives (.lvalue (.field x name)) ts rest
  | deref {x p ts rest} : Derives (.lvalue x) ts (⟨.symbol .deref, p⟩ :: rest) → Derives (.lvalue (.deref x)) ts rest

/-- `expr = or-expr` -/
abbrev IsExpr : Rule Expr := fun ts rest e => Derives (.layer .or e) ts rest

/-- `lvalue` -/
abbrev IsPlace : Rule Place := fun ts rest x => Derives (.lvalue x) ts rest

/-! ## Statements -/

/-- `call = ident "(" [ expr { "," expr } ] ")"` -/
inductive IsCall : Rule Call
  | mk {p q r ts rest name args} : CommaList IsExpr ts (⟨.symbol .rparen, r⟩ :: rest) args →
      IsCall (⟨.ident name, p⟩ :: ⟨.symbol .lparen, q⟩ :: ts) rest ⟨name, args⟩

/-- `"gpr" "(" number ")"` -/
inductive IsGpr : Rule Nat
  | mk {p q r ts rest n} : IsNumber ts (⟨.symbol .rparen, r⟩ :: rest) n →
      IsGpr (⟨.keyword .gpr, p⟩ :: ⟨.symbol .lparen, q⟩ :: ts) rest n

/-- `[ except ]` where `except = "except" "(" [ number { "," number } ] ")"` -/
inductive IsSpared : Rule (List Nat)
  | nothing {ts} : IsSpared ts ts []
  | except {p q r ts rest ns} : CommaList IsNumber ts (⟨.symbol .rparen, r⟩ :: rest) ns →
      IsSpared (⟨.keyword .except, p⟩ :: ⟨.symbol .lparen, q⟩ :: ts) rest ns

/-- `"gpr" "(" number ")" [ except ] | "new" type | call | expr`, after a place and `=` -/
inductive IsAssigned (target : Place) : Rule Stmt
  | gpr {ts mid rest n ns} : IsGpr ts mid n → IsSpared mid rest ns → IsAssigned target ts rest (.fromGpr target n ns)
  | new {p ts rest t} : IsTy ts rest t → IsAssigned target (⟨.keyword .new, p⟩ :: ts) rest (.assign target (.new t))
  | call {ts rest c} : IsCall ts rest c → IsAssigned target ts rest (.assign target (.call c))
  | expr {ts rest e} : IsExpr ts rest e → IsAssigned target ts rest (.assign target (.expr e))

/-- What a phrase of statements is, with its tree: a statement without the semicolon that may follow it, a statement, some
    statements in a row, a block. -/
inductive Clause where
  | bare (s : Stmt)
  | stmt (s : Stmt)
  | stmts (ss : List Stmt)
  | block (ss : List Stmt)

/-- Statements:

    `stmt = ( while-stmt | if-stmt | return-stmt | gpr-stmt | call-stmt | assign-stmt ) [ ";" ]`,
    `block = "{" { stmt } "}"`,
    `while-stmt = "while" expr block`,
    `if-stmt = "if" expr block [ "else" block ]`,
    `return-stmt = "return" [ expr ]`,
    `gpr-stmt = "gpr" "(" number ")" "=" lvalue [ except ]`,
    `assign-stmt = lvalue "=" ...` -/
inductive Runs (after : List Token → Prop) : Clause → List Token → List Token → Prop
  | while {p e ss ts mid rest} : IsExpr ts mid e → Runs after (.block ss) mid rest →
      Runs after (.bare (.while e ss)) (⟨.keyword .while, p⟩ :: ts) rest
  | ifThen {p e ss ts mid rest} : IsExpr ts mid e → Runs after (.block ss) mid rest →
      Runs after (.bare (.ifThen e ss)) (⟨.keyword .if, p⟩ :: ts) rest
  | ifElse {p q e ss os ts mid other rest} : IsExpr ts mid e → Runs after (.block ss) mid (⟨.keyword .else, q⟩ :: other) →
      Runs after (.block os) other rest → Runs after (.bare (.ifElse e ss os)) (⟨.keyword .if, p⟩ :: ts) rest
  | leave {p rest} : after rest → Runs after (.bare (.return none)) (⟨.keyword .return, p⟩ :: rest) rest
  | give {p e ts rest} : IsExpr ts rest e → Runs after (.bare (.return (some e))) (⟨.keyword .return, p⟩ :: ts) rest
  | toGpr {p n x ns ts mid after' rest} : IsGpr ts (⟨.symbol .assign, p⟩ :: mid) n → IsPlace mid after' x →
      IsSpared after' rest ns → Runs after (.bare (.toGpr n x ns)) ts rest
  | call {c ts rest} : IsCall ts rest c → Runs after (.bare (.call c)) ts rest
  | assign {p x s ts mid rest} : IsPlace ts (⟨.symbol .assign, p⟩ :: mid) x → IsAssigned x mid rest s → Runs after (.bare s) ts rest
  | stmt {s ts mid rest} : Runs after (.bare s) ts mid → MaySemicolon mid rest → Runs after (.stmt s) ts rest
  | nil {ts} : Runs after (.stmts []) ts ts
  | cons {s ss ts mid rest} : Runs after (.stmt s) ts mid → Runs after (.stmts ss) mid rest → Runs after (.stmts (s :: ss)) ts rest
  | block {p q ss ts rest} : Runs after (.stmts ss) ts (⟨.symbol .rcurly, q⟩ :: rest) →
      Runs after (.block ss) (⟨.symbol .lcurly, p⟩ :: ts) rest

/-! ## Definitions -/

/-- `type | "void"` -/
inductive IsResult : Rule (Option Ty)
  | ty {ts rest t} : IsTy ts rest t → IsResult ts rest (some t)
  | void {p rest} : IsResult (⟨.keyword .void, p⟩ :: rest) rest none

/-- Definitions:

    `struct-def = "struct" ident "{" { type ident ";" } "}" [ ";" ]`,
    `global-def = type ident ";"`,
    `func-def = ( type | "void" ) ident "(" [ param { "," param } ] ")" "{" { decl } { stmt } "}"` -/
inductive IsDef (after : List Token → Prop) : Rule Def
  | struct {p q r s name fields ts mid rest} : Many IsDecl ts (⟨.symbol .rcurly, s⟩ :: mid) fields → MaySemicolon mid rest →
      IsDef after (⟨.keyword .struct, p⟩ :: ⟨.ident name, q⟩ :: ⟨.symbol .lcurly, r⟩ :: ts) rest (.struct name fields)
  | global {ts rest d} : IsDecl ts rest d → IsDef after ts rest (.global d)
  | function {p q r s u name result params locals body ts ps ls ss rest} :
      IsResult ts (⟨.ident name, p⟩ :: ⟨.symbol .lparen, q⟩ :: ps) result →
      CommaList IsParam ps (⟨.symbol .rparen, r⟩ :: ⟨.symbol .lcurly, s⟩ :: ls) params →
      Many IsDecl ls ss locals → Runs after (.stmts body) ss (⟨.symbol .rcurly, u⟩ :: rest) →
      IsDef after ts rest (.function ⟨name, result, params, locals, body⟩)

/-- `program = { def }` -/
def IsProgram (after : List Token → Prop) (ts : List Token) (program : Program) : Prop := Many (IsDef after) ts [] program.defs

/-- No condition. -/
def IsAny (_ : List Token) : Prop := True

/-- Whether a semicolon or a closing brace comes next. -/
inductive IsClosed : List Token → Prop
  | semicolon {p ts} : IsClosed (⟨.symbol .semicolon, p⟩ :: ts)
  | rcurly {p ts} : IsClosed (⟨.symbol .rcurly, p⟩ :: ts)

/-! ## Tokens of a phrase -/

variable {ts mid rest : List Token}

/-- Whether a token is neither a comment nor invalid. -/
def IsProper : TokenKind → Prop
  | .comment _ | .invalid _ => False
  | _ => True

/-- Whether some tokens are proper tokens followed by others. -/
def Passes (ts rest : List Token) : Prop := ∃ ws, ts = ws ++ rest ∧ ∀ t ∈ ws, IsProper t.kind

/-- Whether some tokens are proper tokens, one at least, followed by others. -/
def Spans (ts rest : List Token) : Prop := Passes ts rest ∧ rest.length < ts.length

namespace Passes

theorem refl (ts : List Token) : Passes ts ts := ⟨[], rfl, nofun⟩

theorem cons {t : Token} (h : IsProper t.kind) (r : Passes ts rest) : Passes (t :: ts) rest := by
  obtain ⟨ws, rfl, hw⟩ := r
  refine ⟨t :: ws, rfl, ?_⟩
  intro u hu
  rcases List.mem_cons.1 hu with rfl | hu
  · exact h
  · exact hw u hu

theorem trans (h : Passes ts mid) (r : Passes mid rest) : Passes ts rest := by
  obtain ⟨ws, rfl, hw⟩ := h
  obtain ⟨vs, rfl, hv⟩ := r
  refine ⟨ws ++ vs, (List.append_assoc ..).symm, ?_⟩
  intro u hu
  rcases List.mem_append.1 hu with hu | hu
  · exact hw u hu
  · exact hv u hu

theorem length_le (h : Passes ts rest) : rest.length ≤ ts.length := by
  obtain ⟨ws, rfl, -⟩ := h
  rw [List.length_append]
  exact Nat.le_add_left ..

theorem next {t : Token} (h : Passes ts (t :: rest)) (ht : IsProper t.kind) : Passes ts rest := h.trans ((refl rest).cons ht)

end Passes

namespace Spans

theorem passes (h : Spans ts rest) : Passes ts rest := h.1

theorem cons {t : Token} (h : IsProper t.kind) (r : Passes ts rest) : Spans (t :: ts) rest :=
  ⟨r.cons h, Nat.lt_succ_of_le r.length_le⟩

theorem trans (h : Spans ts mid) (r : Passes mid rest) : Spans ts rest := ⟨h.1.trans r, Nat.lt_of_le_of_lt r.length_le h.2⟩

/-- A phrase with a proper token after it. -/
theorem next {t : Token} (h : Spans ts (t :: rest)) (ht : IsProper t.kind) : Spans ts rest := h.trans ((Passes.refl rest).cons ht)

end Spans

theorem Many.passes {R : Rule α} {as : List α} (h : Many R ts rest as) (hR : ∀ {ts rest a}, R ts rest a → Spans ts rest) :
    Passes ts rest := by
  induction h with
  | nil => exact Passes.refl _
  | cons ha _ ih => exact (hR ha).passes.trans ih

theorem AfterComma.spans {R : Rule α} {a : α} (h : AfterComma R ts rest a) (hR : ∀ {ts rest a}, R ts rest a → Spans ts rest) :
    Spans ts rest := by
  cases h with
  | mk ha => exact .cons trivial (hR ha).passes

theorem CommaList.passes {R : Rule α} {as : List α} (h : CommaList R ts rest as) (hR : ∀ {ts rest a}, R ts rest a → Spans ts rest) :
    Passes ts rest := by
  cases h with
  | nil => exact Passes.refl _
  | cons ha has => exact (hR ha).passes.trans (has.passes fun h => h.spans hR)

theorem MaySemicolon.passes (h : MaySemicolon ts rest) : Passes ts rest := by
  cases h with
  | without => exact Passes.refl _
  | semicolon => exact (Passes.refl _).cons trivial

theorem IsNumber.spans {n : Nat} (h : IsNumber ts rest n) : Spans ts rest := by
  cases h with
  | mk => exact .cons trivial (Passes.refl _)

theorem IsTy.spans {t : Ty} (h : IsTy ts rest t) : Spans ts rest := by
  induction h with
  | int | uint | bool | char => exact .cons trivial (Passes.refl _)
  | struct => exact .cons trivial ((Passes.refl _).cons trivial)
  | pointer _ ih => exact ih.next trivial
  | array _ hn ih => exact (ih.next trivial).trans (hn.spans.next trivial).passes

theorem IsParam.spans {d : Decl} (h : IsParam ts rest d) : Spans ts rest := by
  cases h with
  | mk ht => exact ht.spans.next trivial

theorem IsDecl.spans {d : Decl} (h : IsDecl ts rest d) : Spans ts rest := by
  cases h with
  | mk hd => exact hd.spans.next trivial

theorem Derives.spans {x : Phrase} (h : Derives x ts rest) : Spans ts rest := by
  induction h with
  | one _ ih => exact ih
  | more _ _ _ _ iha ihb => exact (iha.next trivial).trans ihb.passes
  | two _ _ _ iha ihb => exact (iha.next trivial).trans ihb.passes
  | not _ ih | neg _ ih => exact .cons trivial ih.passes
  | primary _ ih | place _ ih => exact ih
  | number | true | false | char | var => exact .cons trivial (Passes.refl _)
  | parens _ ih => exact .cons trivial (ih.next trivial).passes
  | index _ _ ihx ihi => exact (ihx.next trivial).trans (ihi.next trivial).passes
  | field _ ih => exact (ih.next trivial).next trivial
  | deref _ ih => exact ih.next trivial

theorem IsCall.spans {c : Call} (h : IsCall ts rest c) : Spans ts rest := by
  cases h with
  | mk hargs => exact .cons trivial (.cons trivial ((hargs.passes Derives.spans).next trivial))

theorem IsGpr.spans {n : Nat} (h : IsGpr ts rest n) : Spans ts rest := by
  cases h with
  | mk hn => exact .cons trivial (.cons trivial (hn.spans.next trivial).passes)

theorem IsSpared.passes {ns : List Nat} (h : IsSpared ts rest ns) : Passes ts rest := by
  cases h with
  | nothing => exact Passes.refl _
  | except hns => exact .cons trivial (.cons trivial ((hns.passes IsNumber.spans).next trivial))

theorem IsAssigned.spans {x : Place} {s : Stmt} (h : IsAssigned x ts rest s) : Spans ts rest := by
  cases h with
  | gpr hn hns => exact hn.spans.trans hns.passes
  | new ht => exact .cons trivial ht.spans.passes
  | call hc => exact hc.spans
  | expr he => exact he.spans

/-- Whether tokens may be those of a phrase of statements.  Only statements in a row may be none. -/
def Clause.Covers : Clause → List Token → List Token → Prop
  | .stmts _ => Passes
  | _ => Spans

theorem Runs.covers {after : List Token → Prop} {c : Clause} (h : Runs after c ts rest) : c.Covers ts rest := by
  induction h with
  | «while» he _ ih | ifThen he _ ih => exact Spans.cons trivial (he.spans.passes.trans (Spans.passes ih))
  | ifElse he _ _ ih ih' =>
    have other := (ih.next trivial).trans (Spans.passes ih')
    exact Spans.cons trivial (he.spans.passes.trans other.passes)
  | leave _ => exact Spans.cons trivial (Passes.refl _)
  | give he => exact Spans.cons trivial he.spans.passes
  | toGpr hn hx hns => exact (hn.spans.next trivial).trans (hx.spans.passes.trans hns.passes)
  | call hc => exact hc.spans
  | assign hx hs => exact (hx.spans.next trivial).trans hs.spans.passes
  | stmt _ hm ih => exact Spans.trans ih hm.passes
  | nil => exact Passes.refl _
  | cons _ _ ihs ihss => exact Passes.trans (Spans.passes ihs) ihss
  | block _ ih => exact Spans.cons trivial (Passes.next ih trivial)

theorem IsResult.spans {result : Option Ty} (h : IsResult ts rest result) : Spans ts rest := by
  cases h with
  | ty ht => exact ht.spans
  | void => exact .cons trivial (Passes.refl _)

theorem IsDef.spans {after : List Token → Prop} {d : Def} (h : IsDef after ts rest d) : Spans ts rest := by
  cases h with
  | struct hf hm =>
    have fields := (hf.passes IsDecl.spans).next trivial
    exact .cons trivial (.cons trivial (.cons trivial (fields.trans hm.passes)))
  | global hd => exact hd.spans
  | function hr hp hl hs =>
    have params := ((hp.passes IsParam.spans).next trivial).next trivial
    have locals := hl.passes IsDecl.spans
    have body := Passes.next hs.covers trivial
    exact ((hr.spans.next trivial).next trivial).trans (params.trans (locals.trans body))

/-- The tokens of a program are proper. -/
theorem IsProgram.proper {after : List Token → Prop} {program : Program} (h : IsProgram after ts program) :
    ∀ t ∈ ts, IsProper t.kind := by
  obtain ⟨ws, hws, proper⟩ := Many.passes h IsDef.spans
  rw [List.append_nil] at hws
  rw [hws]
  exact proper

end M32.Lang.Grammar
