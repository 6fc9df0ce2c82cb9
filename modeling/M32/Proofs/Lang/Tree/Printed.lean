/-
  Expressions that are written and read back.

  1. `Expr.kinds` and `Place.kinds` are the kinds of the tokens of an expression as it is written.  A plain expression, one
     whose parts the lexer can read, is written as a text that spells them (`spells_expr`).
  2. Whatever stands in parentheses is derived at each level at which operators bind.  So tokens of these kinds derive the
     expression as an operand, whatever comes after them (`derives_expr`).
  3. With both, a plain expression is read back from what is written of it.
-/
import M32.Lang.Tree.Printer
import M32.Proofs.Lang.Grammar.Read.Programs
import M32.Proofs.Lang.Token.Spelled

namespace M32.Lang

open Grammar

/-! ## Kinds -/

mutual

/-- The kinds of the tokens of an expression. -/
def Expr.kinds : Expr → List TokenKind
  | .binary op left right => .symbol .lparen :: (left.kinds ++ .symbol op.symbol :: (right.kinds ++ [.symbol .rparen]))
  | .unary op operand => .symbol op.symbol :: operand.kinds
  | .number value isUnsigned => [.number (numberText value isUnsigned) value isUnsigned]
  | .bool value => [.keyword (if value then .true else .false)]
  | .char value => [.char value]
  | .place p => p.kinds

/-- The kinds of the tokens of a place. -/
def Place.kinds : Place → List TokenKind
  | .var name => [.ident name]
  | .index base i => base.kinds ++ .symbol .lbracket :: (i.kinds ++ [.symbol .rbracket])
  | .field base name => base.kinds ++ [.symbol .period, .ident name]
  | .deref base => base.kinds ++ [.symbol .deref]

end

/-- Whether a text is a name: a word that is no keyword. -/
def IsPlainName (name : String) : Prop := IsName name ∧ Keyword.ofSpelling? name = none

mutual

/-- Whether an expression has numbers of 64 bits, names that are no keywords, and characters that the lexer reads. -/
def Expr.IsPlain : Expr → Prop
  | .binary _ left right => left.IsPlain ∧ right.IsPlain
  | .unary _ operand => operand.IsPlain
  | .number value _ => value < 0x10000000000000000
  | .bool _ => True
  | .char value => IsPlainChar value
  | .place p => p.IsPlain

/-- Whether a place has such expressions for indices, and names that are no keywords. -/
def Place.IsPlain : Place → Prop
  | .var name => IsPlainName name
  | .index base i => base.IsPlain ∧ i.IsPlain
  | .field base name => base.IsPlain ∧ IsPlainName name
  | .deref base => base.IsPlain

end

/-! ## Texts -/

theorem IsPlainName.wordKind {name : String} (h : IsPlainName name) : wordKind name = .ident name := by
  rw [Lang.wordKind, h.2]

theorem spells_bool (value : Bool) : Spells (toString value).toList [.keyword (if value then .true else .false)] := by
  cases value with
  | true =>
    have name : IsName "true" := ⟨'t', _, rfl, by decide, List.all_eq_true.1 (by decide)⟩
    exact .word name
  | false =>
    have name : IsName "false" := ⟨'f', _, rfl, by decide, List.all_eq_true.1 (by decide)⟩
    exact .word name

mutual

/-- A plain expression is written as a text of its tokens. -/
theorem spells_expr : ∀ e : Expr, e.IsPlain → Spells e.text.toList e.kinds
  | .binary op left right, h => by
    obtain ⟨plain_left, plain_right⟩ := h
    have spelled := (spells_expr left plain_left).binary op (spells_expr right plain_right)
    have text : (Expr.binary op left right).text.toList =
        '(' :: (left.text.toList ++ ' ' :: (op.symbol.spelling ++ ' ' :: (right.text.toList ++ [')']))) := by
      simp [Expr.text, BinaryOp.text]
    rw [text, Expr.kinds]
    exact spelled
  | .unary op operand, h => by
    have spelled := (spells_expr operand h).unary op
    have text : (Expr.unary op operand).text.toList = op.symbol.spelling ++ operand.text.toList := by
      simp [Expr.text, UnaryOp.text]
    rw [text, Expr.kinds]
    exact spelled
  | .number value isUnsigned, h => by
    rw [Expr.text, Expr.kinds]
    exact .number h isUnsigned
  | .bool value, _ => by
    rw [Expr.text, Expr.kinds]
    exact spells_bool value
  | .char value, h => by
    rw [Expr.text, Expr.kinds]
    exact .char h
  | .place p, h => by
    rw [Expr.text, Expr.kinds]
    exact spells_place p h

theorem spells_place : ∀ x : Place, x.IsPlain → Spells x.text.toList x.kinds
  | .var name, h => by
    have spelled := Spells.word h.1
    rw [h.wordKind] at spelled
    rw [Place.text, Place.kinds]
    exact spelled
  | .index base i, h => by
    obtain ⟨plain_base, plain_i⟩ := h
    have spelled := (spells_place base plain_base).index (spells_expr i plain_i)
    have text : (Place.index base i).text.toList = base.text.toList ++ '[' :: (i.text.toList ++ [']']) := by
      simp [Place.text]
    rw [text, Place.kinds]
    exact spelled
  | .field base name, h => by
    obtain ⟨plain_base, plain_name⟩ := h
    have spelled := (spells_place base plain_base).field plain_name.1
    rw [plain_name.wordKind] at spelled
    have text : (Place.field base name).text.toList = base.text.toList ++ '.' :: name.toList := by
      simp [Place.text]
    rw [text, Place.kinds]
    exact spelled
  | .deref base, h => by
    have spelled := (spells_place base h).deref
    have text : (Place.deref base).text.toList = base.text.toList ++ ['@'] := by
      simp [Place.text]
    rw [text, Place.kinds]
    exact spelled

end

/-! ## Levels -/

section

variable {e a b : Expr} {ts mid rest : List Token}

/-- An operand is a phrase of each layer. -/
theorem derives_layer (h : Derives (.unary e) ts rest) (l : Layer) : Derives (.layer l e) ts rest := by
  have mul : Derives (.layer .mul e) ts rest := .one h
  have add : Derives (.layer .add e) ts rest := .one mul
  have relat : Derives (.layer .relat e) ts rest := .one add
  have eq : Derives (.layer .eq e) ts rest := .one relat
  have and : Derives (.layer .and e) ts rest := .one eq
  cases l with
  | or => exact .one and
  | and => exact and
  | eq => exact eq
  | relat => exact relat
  | add => exact add
  | mul => exact mul

theorem derives_inner (h : Derives (.unary e) ts rest) (l : Layer) : Derives (l.inner e) ts rest := by
  cases l with
  | or => exact derives_layer h .and
  | and => exact derives_layer h .eq
  | eq => exact derives_layer h .relat
  | relat => exact derives_layer h .add
  | add => exact derives_layer h .mul
  | mul => exact h

/-- A phrase of a layer is an expression. -/
theorem isExpr_of_layer {l : Layer} (h : Derives (.layer l e) ts rest) : IsExpr ts rest e := by
  cases l with
  | or => exact h
  | and => exact .one h
  | eq => exact .one (.one h)
  | relat => exact .one (.one (.one h))
  | add => exact .one (.one (.one (.one h)))
  | mul => exact .one (.one (.one (.one (.one h))))

theorem exists_layer (op : BinaryOp) : ∃ l : Layer, (op.symbol, op) ∈ l.ops := by
  cases op with
  | or => exact ⟨.or, by decide⟩
  | and => exact ⟨.and, by decide⟩
  | eq | ne => exact ⟨.eq, by decide⟩
  | lt | gt | le | ge => exact ⟨.relat, by decide⟩
  | add | sub => exact ⟨.add, by decide⟩
  | mul | div => exact ⟨.mul, by decide⟩

/-- An operator between two operands. -/
theorem isExpr_binary (op : BinaryOp) {p : Pos} (ha : Derives (.unary a) ts (⟨.symbol op.symbol, p⟩ :: mid))
    (hb : Derives (.unary b) mid rest) : IsExpr ts rest (.binary op a b) := by
  obtain ⟨l, mem⟩ := exists_layer op
  by_cases relat : l = .relat
  · rw [relat] at mem
    exact isExpr_of_layer (.two mem (derives_layer ha .add) (derives_layer hb .add))
  · exact isExpr_of_layer (.more relat mem (derives_layer ha l) (derives_inner hb l))

end

/-! ## Tokens -/

/-- Tokens whose kinds start with another are a token and others. -/
theorem exists_cons_of_map_kind {ts : List Token} {k : TokenKind} {ks : List TokenKind} (h : ts.map Token.kind = k :: ks) :
    ∃ p rest, ts = ⟨k, p⟩ :: rest ∧ rest.map Token.kind = ks := by
  obtain ⟨⟨_, p⟩, rest, rfl, rfl, tail⟩ := List.map_eq_cons_iff.1 h
  exact ⟨p, rest, rfl, tail⟩

mutual

/-- Tokens of the kinds of an expression derive it as an operand, whatever comes after them. -/
theorem derives_expr : ∀ (e : Expr) {ts : List Token} {ks : List TokenKind}, ts.map Token.kind = e.kinds ++ ks →
    ∃ rest, rest.map Token.kind = ks ∧ Derives (.unary e) ts rest
  | .binary op left right, ts, ks, h => by
    simp only [Expr.kinds, List.cons_append, List.append_assoc, List.nil_append] at h
    obtain ⟨p, inner, rfl, from_left⟩ := exists_cons_of_map_kind h
    obtain ⟨mid, from_op, left_derived⟩ := derives_expr left from_left
    obtain ⟨q, after, rfl, from_right⟩ := exists_cons_of_map_kind from_op
    obtain ⟨last, from_paren, right_derived⟩ := derives_expr right from_right
    obtain ⟨r, rest, rfl, others⟩ := exists_cons_of_map_kind from_paren
    exact ⟨rest, others, .primary (.parens (isExpr_binary op left_derived right_derived))⟩
  | .unary op operand, ts, ks, h => by
    rw [Expr.kinds, List.cons_append] at h
    obtain ⟨p, inner, rfl, from_operand⟩ := exists_cons_of_map_kind h
    obtain ⟨rest, others, derived⟩ := derives_expr operand from_operand
    cases op with
    | not => exact ⟨rest, others, .not derived⟩
    | neg => exact ⟨rest, others, .neg derived⟩
  | .number value isUnsigned, ts, ks, h => by
    rw [Expr.kinds, List.singleton_append] at h
    obtain ⟨p, rest, rfl, others⟩ := exists_cons_of_map_kind h
    exact ⟨rest, others, .primary .number⟩
  | .bool value, ts, ks, h => by
    rw [Expr.kinds, List.singleton_append] at h
    obtain ⟨p, rest, rfl, others⟩ := exists_cons_of_map_kind h
    cases value with
    | true => exact ⟨rest, others, .primary .true⟩
    | false => exact ⟨rest, others, .primary .false⟩
  | .char value, ts, ks, h => by
    rw [Expr.kinds, List.singleton_append] at h
    obtain ⟨p, rest, rfl, others⟩ := exists_cons_of_map_kind h
    exact ⟨rest, others, .primary .char⟩
  | .place p, ts, ks, h => by
    rw [Expr.kinds] at h
    obtain ⟨rest, others, derived⟩ := derives_place p h
    exact ⟨rest, others, .primary (.place derived)⟩

theorem derives_place : ∀ (x : Place) {ts : List Token} {ks : List TokenKind}, ts.map Token.kind = x.kinds ++ ks →
    ∃ rest, rest.map Token.kind = ks ∧ Derives (.lvalue x) ts rest
  | .var name, ts, ks, h => by
    rw [Place.kinds, List.singleton_append] at h
    obtain ⟨p, rest, rfl, others⟩ := exists_cons_of_map_kind h
    exact ⟨rest, others, .var⟩
  | .index base i, ts, ks, h => by
    simp only [Place.kinds, List.cons_append, List.append_assoc, List.nil_append] at h
    obtain ⟨mid, from_bracket, base_derived⟩ := derives_place base h
    obtain ⟨p, inner, rfl, from_index⟩ := exists_cons_of_map_kind from_bracket
    obtain ⟨last, from_close, index_derived⟩ := derives_expr i from_index
    obtain ⟨q, rest, rfl, others⟩ := exists_cons_of_map_kind from_close
    exact ⟨rest, others, .index base_derived (derives_layer index_derived .or)⟩
  | .field base name, ts, ks, h => by
    simp only [Place.kinds, List.cons_append, List.append_assoc, List.nil_append] at h
    obtain ⟨mid, from_period, derived⟩ := derives_place base h
    obtain ⟨p, after, rfl, from_name⟩ := exists_cons_of_map_kind from_period
    obtain ⟨q, rest, rfl, others⟩ := exists_cons_of_map_kind from_name
    exact ⟨rest, others, .field derived⟩
  | .deref base, ts, ks, h => by
    simp only [Place.kinds, List.cons_append, List.append_assoc, List.nil_append] at h
    obtain ⟨mid, from_mark, derived⟩ := derives_place base h
    obtain ⟨p, rest, rfl, others⟩ := exists_cons_of_map_kind from_mark
    exact ⟨rest, others, .deref derived⟩

end

/-! ## Reading back -/

/-- A plain expression is read back from its text.  No token of the text is a comment, and none is left. -/
theorem written_expr_read {e : Expr} (plain : e.IsPlain) (file : String) :
    codeTokens file e.text.toList = tokens file e.text.toList ∧
      Expr.ofTokens (codeTokens file e.text.toList) = .ok (e, []) := by
  have kinds : (tokens file e.text.toList).map Token.kind = e.kinds ++ [] := by
    rw [(spells_expr e plain).kind_tokens file, List.append_nil]
  obtain ⟨rest, none, derived⟩ := derives_expr e kinds
  obtain rfl := List.map_eq_nil_iff.1 none
  have proper : ∀ t ∈ tokens file e.text.toList, IsProper t.kind := by
    obtain ⟨ws, all, proper⟩ := derived.spans.passes
    rw [List.append_nil] at all
    rw [all]
    exact proper
  have code : codeTokens file e.text.toList = tokens file e.text.toList := withoutComments_of_proper proper
  refine ⟨code, ?_⟩
  rw [code]
  exact Parse.expr_read (derives_layer derived .or) (Nat.le_succ _) nofun

/-- An expression with each kind of part. -/
theorem written_expr_read_parts :
    Expr.ofTokens (codeTokens "f" "(!a[-1u].b@ != ('\\'' / true))".toList) =
      .ok (.binary .ne (.unary .not (.place (.deref (.field (.index (.var "a") (.unary .neg (.number 1 true))) "b"))))
        (.binary .div (.char '\'') (.bool true)), []) := by
  have a : IsPlainName "a" := ⟨⟨'a', _, rfl, by decide, nofun⟩, by decide⟩
  have b : IsPlainName "b" := ⟨⟨'b', _, rfl, by decide, nofun⟩, by decide⟩
  have quote : IsPlainChar '\'' := .inr ⟨'\'', rfl⟩
  have one : 1 < 0x10000000000000000 := by decide
  have plain : (Expr.binary .ne (.unary .not (.place (.deref (.field (.index (.var "a") (.unary .neg (.number 1 true))) "b"))))
      (.binary .div (.char '\'') (.bool true))).IsPlain := by
    simp only [Expr.IsPlain, Place.IsPlain]
    exact ⟨⟨⟨a, one⟩, b⟩, quote, trivial⟩
  exact (written_expr_read plain "f").2

end M32.Lang
