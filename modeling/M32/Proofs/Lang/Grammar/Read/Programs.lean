/-
  What the grammar derives is read: definitions and programs.

  1. A type with a name after it does not look like the head of a struct (`third_of_isTy`), and what comes first in a statement
     opens no type, so variables end where statements start (`locals_read`).
  2. With what is derived from all that is read, reading is the inverse of the grammar (`read_exactly`).
-/
import M32.Proofs.Lang.Grammar.Read.Statements

namespace M32.Lang.Parse

open Grammar

variable {ts mid rest : List Token} {room : Nat}

/-! ## Definitions -/

theorem head_of_isTy {t : Ty} (h : IsTy ts rest t) : ∃ k, head ts = some (.keyword k) ∧ k.opensType = true := by
  induction h with
  | int | uint | bool | char | struct => exact ⟨_, rfl, rfl⟩
  | pointer _ ih | array _ _ ih => exact ih

theorem head_of_isDecl {d : Decl} (h : IsDecl ts rest d) : ∃ k, head ts = some (.keyword k) ∧ k.opensType = true := by
  cases h with
  | mk hd =>
    cases hd with
    | mk ht => exact head_of_isTy ht

/-- A type with no brace after it does not look like the head of a struct. -/
theorem third_of_isTy {t : Ty} (h : IsTy ts rest t) (next : head rest ≠ some (.symbol .lcurly))
    (struct : head ts = some (.keyword .struct)) : ts[2]?.map Token.kind ≠ some (.symbol .lcurly) := by
  induction h with
  | int | uint | bool | char => cases struct
  | struct => exact next
  | pointer _ ih | array _ _ ih => exact ih nofun struct

/-- So what starts with such a type is not read as a struct with its fields. -/
theorem not_struct_of_isTy {t : Ty} (h : IsTy ts rest t) (next : head rest ≠ some (.symbol .lcurly)) :
    ¬ (decide (head ts = some (.keyword .struct)) && decide (ts[2]?.map Token.kind = some (.symbol .lcurly))) = true := by
  rw [Bool.and_eq_true, decide_eq_true_iff, decide_eq_true_iff]
  rintro ⟨struct, third⟩
  exact third_of_isTy h next struct third

theorem seesTy_read (ts : List Token) : seesTy ts = .ok (((head ts).map TokenKind.opensType).getD false, ts) := rfl

theorem locals_read {ds : List Decl} (h : Many IsDecl ts rest ds) (hr : ts.length ≤ room) (next : Next rest) :
    many (do if ← seesTy then return some (← closedDecl room) else return none) room ts = .ok (ds, rest) := by
  refine many_read (I := fun _ => True) h IsDecl.spans (fun _ => trivial) ?_ trivial ?_ hr hr
  · intro ts mid d hd le _
    obtain ⟨k, hk, opens⟩ := head_of_isDecl hd
    rw [bind_of_ok (seesTy_read ts), hk]
    show (if k.opensType = true then _ else _ : Parse (Option Decl)) ts = _
    rw [if_pos opens, bind_of_ok (closedDecl_read hd le)]
    rfl
  · obtain ⟨⟨t, tail, rfl, ready⟩, -⟩ := next
    have no_type : t.kind.opensType = false := by
      cases hk : t.kind with
      | keyword k => cases k <;> first | rfl | (rw [hk] at ready; cases ready)
      | _ => rfl
    rw [bind_of_ok (seesTy_read _)]
    show (if t.kind.opensType = true then _ else _ : Parse (Option Decl)) _ = _
    rw [no_type, if_neg Bool.false_ne_true]
    rfl

/-- Statements before a closing brace start with one, or are none. -/
theorem next_of_stmts {after : List Token → Prop} {ss : List Stmt} (h : Runs after (.stmts ss) ts rest) (next : Next rest) :
    Next ts := by
  cases h with
  | nil => exact next
  | cons hs _ =>
    obtain ⟨t, tail, rfl, opens⟩ := opens_of_runs hs
    exact next_of_opensStmt opens tail

theorem functionDef_read {result : Option Ty} {name : String} {params locals : List Decl} {body : List Stmt} {q r s u : Pos}
    {ps ls ss : List Token} (hp : CommaList IsParam ps (⟨.symbol .rparen, r⟩ :: ⟨.symbol .lcurly, s⟩ :: ls) params)
    (hl : Many IsDecl ls ss locals) (hs : Runs IsClosed (.stmts body) ss (⟨.symbol .rcurly, u⟩ :: rest)) (hr : ps.length ≤ room) :
    functionDef room result name (⟨.symbol .lparen, q⟩ :: ps) = .ok (.function ⟨name, result, params, locals, body⟩, rest) := by
  have shorter := (hp.passes IsParam.spans).length_le
  have shorter' := (hl.passes IsDecl.spans).length_le
  rw [List.length_cons, List.length_cons] at shorter
  have starts {ts mid : List Token} {d : Decl} (h : IsParam ts mid d) : head ts ≠ some (.symbol .rparen) := by
    cases h with
    | mk ht =>
      obtain ⟨k, hk, -⟩ := head_of_isTy ht
      rw [hk]
      nofun
  have readParams : commaList room .rparen (decl room) ps = .ok (params, ⟨.symbol .rparen, r⟩ :: ⟨.symbol .lcurly, s⟩ :: ls) :=
    commaList_read (I := fun _ => True) hp IsParam.spans starts (fun h le _ => decl_read h (by omega)) (fun _ _ => trivial)
      trivial (by decide) hr
  rw [functionDef, bind_of_ok (symbol_read .lparen q ps), bind_of_ok readParams, bind_of_ok (symbol_read .rparen r _),
    bind_of_ok (symbol_read .lcurly s ls), bind_of_ok (locals_read hl (by omega) (next_of_stmts hs (next_rcurly u rest))),
    bind_of_ok (stmts_read (isRead_of_runs hs) (by omega) (by omega)), bind_of_ok (symbol_read .rcurly u rest)]
  rfl

theorem structDef_read {name : String} {fields : List Decl} {p q r s : Pos}
    (hf : Many IsDecl ts (⟨.symbol .rcurly, s⟩ :: mid) fields) (hm : MaySemicolon mid rest)
    (next : head rest ≠ some (.symbol .semicolon)) (hr : ts.length ≤ room) :
    structDef room (⟨.keyword .struct, p⟩ :: ⟨.ident name, q⟩ :: ⟨.symbol .lcurly, r⟩ :: ts) = .ok (.struct name fields, rest) := by
  have starts {ts mid : List Token} {d : Decl} (h : IsDecl ts mid d) : True ∧ head ts ≠ some (.symbol .rcurly) := by
    obtain ⟨k, hk, -⟩ := head_of_isDecl h
    refine ⟨trivial, ?_⟩
    rw [hk]
    nofun
  have readFields : upTo room .rcurly (closedDecl room) ts = .ok (fields, ⟨.symbol .rcurly, s⟩ :: mid) :=
    upTo_read (I := fun _ => True) hf IsDecl.spans starts (fun h le _ => closedDecl_read h (by omega)) trivial hr
  rw [structDef, bind_of_ok (word_read .struct p _), bind_of_ok (ident_read name q _), bind_of_ok (symbol_read .lcurly r ts),
    bind_of_ok readFields, bind_of_ok (symbol_read .rcurly s mid)]
  cases hm with
  | without =>
    rw [bind_of_ok (takes_false next)]
    rfl
  | @semicolon p =>
    rw [bind_of_ok (takes_true .semicolon p rest)]
    rfl

theorem third_read (ts : List Token) : peek? 2 ts = .ok (ts[2]?.map Token.kind, ts) := rfl

/-- A definition that is no struct with its fields, after its result and its name. -/
theorem definition_of_ty {t : Ty} {name : String} {p : Pos} (h : IsTy ts (⟨.ident name, p⟩ :: mid) t) (hr : ts.length ≤ room) :
    definition room ts = (do
      if ← sees .lparen then functionDef room (some t) name
      else
        symbol .semicolon
        return .global ⟨t, name⟩) mid := by
  obtain ⟨k, hk, opens⟩ := head_of_isTy h
  have no_void : head ts ≠ some (.keyword .void) := by
    rw [hk]
    rintro ⟨⟩
    cases opens
  rw [definition, bind_of_ok (peek_read ts), bind_of_ok (third_read ts), if_neg (not_struct_of_isTy h nofun),
    bind_of_ok (takesWord_false no_void), if_neg Bool.false_ne_true, bind_of_ok (ty_read h hr nofun nofun),
    bind_of_ok (ident_read name p mid)]

/-- A definition is read, if no semicolon follows. -/
theorem definition_read {d : Def} (h : IsDef IsClosed ts rest d) (hr : ts.length ≤ room)
    (next : head rest ≠ some (.symbol .semicolon)) : definition room ts = .ok (d, rest) := by
  cases h with
  | @struct p q r s name fields us mid _ hf hm =>
    rw [List.length_cons, List.length_cons, List.length_cons] at hr
    rw [definition, bind_of_ok (peek_read _), bind_of_ok (third_read _)]
    show structDef room _ = _
    exact structDef_read hf hm next (by omega)
  | global hd =>
    cases hd with
    | @mk q _ _ d hd =>
      cases hd with
      | @mk p _ _ t name ht =>
        have no_call : ¬ decide (head (⟨.symbol .semicolon, q⟩ :: rest) = some (.symbol .lparen)) = true := nofun
        rw [definition_of_ty ht hr, bind_of_ok (sees_read .lparen _), if_neg no_call, bind_of_ok (symbol_read .semicolon q rest)]
        rfl
  | @function p q r s u name result params locals body _ ps ls ss _ hresult hp hl hs =>
    have shorter := hresult.spans.2
    rw [List.length_cons, List.length_cons] at shorter
    have read (result : Option Ty) :
        functionDef room result name (⟨.symbol .lparen, q⟩ :: ps) = .ok (.function ⟨name, result, params, locals, body⟩, rest) :=
      functionDef_read hp hl hs (by omega)
    cases hresult with
    | ty ht =>
      have call : decide (head (⟨.symbol .lparen, q⟩ :: ps) = some (.symbol .lparen)) = true := rfl
      rw [definition_of_ty ht hr, bind_of_ok (sees_read .lparen _), if_pos call, read]
    | @void v =>
      have no_struct : head (⟨.keyword .void, v⟩ :: ⟨.ident name, p⟩ :: ⟨.symbol .lparen, q⟩ :: ps) ≠ some (.keyword .struct) :=
        nofun
      rw [definition, bind_of_ok (peek_read _), bind_of_ok (third_read _), decide_eq_false no_struct, Bool.false_and,
        if_neg Bool.false_ne_true, bind_of_ok (takesWord_true .void v _), if_pos rfl, bind_of_ok (ident_read name p _), read]

theorem head_of_isDef {after : List Token → Prop} {d : Def} (h : IsDef after ts rest d) : ∃ k, head ts = some (.keyword k) := by
  cases h with
  | struct => exact ⟨_, rfl⟩
  | global hd =>
    obtain ⟨k, hk, -⟩ := head_of_isDecl hd
    exact ⟨k, hk⟩
  | function hr =>
    cases hr with
    | ty ht =>
      obtain ⟨k, hk, -⟩ := head_of_isTy ht
      exact ⟨k, hk⟩
    | void => exact ⟨_, rfl⟩

theorem definitions_read {ds : List Def} (h : Many (IsDef IsClosed) ts [] ds) {count : Nat} (hr : ts.length ≤ room)
    (hc : ts.length ≤ count) : definitions room count ts = (ds, none) := by
  generalize hend : ([] : List Token) = rest at h
  induction h generalizing count with
  | nil =>
    subst hend
    cases count <;> rfl
  | @cons ts mid rest d ds hd hds ih =>
    have shorter := hd.spans.2
    -- a definition starts with a keyword, so no semicolon is taken for the end of this one
    have next : head mid ≠ some (.symbol .semicolon) := by
      cases hds with
      | nil =>
        subst hend
        nofun
      | cons hd' _ =>
        obtain ⟨k, hk⟩ := head_of_isDef hd'
        rw [hk]
        nofun
    cases count with
    | zero => omega
    | succ count =>
      cases ts with
      | nil => exact absurd shorter (Nat.not_lt_zero _)
      | cons t ts =>
        unfold definitions
        dsimp only
        rw [definition_read hd hr next]
        dsimp only
        rw [ih (by omega) (by omega) hend]

end Parse

/-! ## Programs -/

/-- What the grammar derives, with a semicolon or a closing brace after each `return` without a value, is read. -/
theorem ofTokens_of_isProgram {ts : List Token} {p : Program} (h : Grammar.IsProgram Grammar.IsClosed ts p) :
    Program.ofTokens ts = (p, none) := by
  have read := Parse.definitions_read h (Nat.le_succ _) (Nat.le_succ _)
  simp only [Program.ofTokens, read]

/-- Reading without an error is deriving with a semicolon or a closing brace after each `return` without a value. -/
theorem ofTokens_eq_iff {ts : List Token} {p : Program} :
    Program.ofTokens ts = (p, none) ↔ Grammar.IsProgram Grammar.IsClosed ts p :=
  ⟨isProgram_of_ofTokens fun _ closed => closed, ofTokens_of_isProgram⟩

/-- Tokens derive one program only, if a semicolon or a closing brace stands after each `return` without a value. -/
theorem Grammar.IsProgram.unique {ts : List Token} {p q : Program} (h : IsProgram IsClosed ts p) (h' : IsProgram IsClosed ts q) :
    p = q := by
  have read := ofTokens_eq_iff.2 h
  rw [ofTokens_eq_iff.2 h'] at read
  exact (congrArg Prod.fst read).symm

theorem ofText_eq_ok_iff {file : String} {cs : List Char} {p : Program} :
    Program.ofText file cs = .ok p ↔ Program.ofTokens (codeTokens file cs) = (p, none) := by
  unfold Program.ofText
  rcases Program.ofTokens (codeTokens file cs) with ⟨q, _ | e⟩
  · simp only [Except.ok.injEq, Prod.mk.injEq, and_true]
  · simp only [reduceCtorEq, Prod.mk.injEq, and_false]

/-- Proper tokens hold no comment. -/
theorem withoutComments_of_proper {ts : List Token} (h : ∀ t ∈ ts, Grammar.IsProper t.kind) : withoutComments ts = ts := by
  refine List.filter_eq_self.2 fun t ht => ?_
  have proper := h t ht
  cases hk : t.kind with
  | comment text =>
    rw [hk] at proper
    exact proper.elim
  | _ => rfl

/-- Reading is the inverse of the grammar.

    1. Whatever tokens are read without an error, those that are not comments are all of a phrase that the grammar derives, and
       the program that is read is its tree.  No invalid token is among them.
    2. So it is with a text.
    3. The tokens of each program that the grammar derives are read as just that program, if a semicolon or a closing brace stands
       after each `return` without a value. -/
theorem read_exactly (p : Program) :
    (∀ ts, Program.ofTokens (withoutComments ts) = (p, none) →
      Grammar.IsProgram Grammar.IsAny (withoutComments ts) p ∧ ∀ t ∈ withoutComments ts, Grammar.IsProper t.kind) ∧
    (∀ file cs, Program.ofText file cs = .ok p →
      Grammar.IsProgram Grammar.IsAny (codeTokens file cs) p ∧ ∀ t ∈ codeTokens file cs, Grammar.IsProper t.kind) ∧
    ∀ ts, Grammar.IsProgram Grammar.IsClosed ts p → Program.ofTokens (withoutComments ts) = (p, none) := by
  have derived {ts : List Token} (h : Program.ofTokens ts = (p, none)) :
      Grammar.IsProgram Grammar.IsAny ts p ∧ ∀ t ∈ ts, Grammar.IsProper t.kind := by
    have program := isProgram_of_ofTokens (fun _ _ => trivial) h
    exact ⟨program, program.proper⟩
  refine ⟨fun ts h => derived h, fun file cs h => derived (ofText_eq_ok_iff.1 h), fun ts h => ?_⟩
  rw [withoutComments_of_proper h.proper]
  exact ofTokens_eq_iff.2 h

/-- A text with one variable and one function. -/
def sampleText : List Char := "int x; void f() \x7b x = 1 - x * 2; return; \x7d // done".toList

/-- The tokens of `sampleText` that count, with their columns. -/
def sampleTokens : List Token :=
  [(.keyword .int, 0), (.ident "x", 4), (.symbol .semicolon, 5), (.keyword .void, 7), (.ident "f", 12), (.symbol .lparen, 13),
    (.symbol .rparen, 14), (.symbol .lcurly, 16), (.ident "x", 18), (.symbol .assign, 20), (.number "1" 1 false, 22),
    (.symbol .minus, 24), (.ident "x", 26), (.symbol .star, 28), (.number "2" 2 false, 30), (.symbol .semicolon, 31),
    (.keyword .return, 33), (.symbol .semicolon, 39), (.symbol .rcurly, 41)].map fun (k, col) => ⟨k, ⟨"f", 0, col⟩⟩

/-- What is subtracted in `sampleText`. -/
def sampleProduct : Expr := .binary .mul (.place (.var "x")) (.number 2 false)

/-- The program of `sampleText`. -/
def sampleProgram : Program :=
  ⟨[.global ⟨.scalar .int, "x"⟩,
    .function ⟨"f", none, [], [], [.assign (.var "x") (.expr (.binary .sub (.number 1 false) sampleProduct)), .return none]⟩]⟩

theorem isProgram_sample : Grammar.IsProgram Grammar.IsClosed sampleTokens sampleProgram := by
  have product {p q r : Pos} {rest : List Token} : Grammar.Derives (.layer .mul sampleProduct)
      (⟨.ident "x", p⟩ :: ⟨.symbol .star, q⟩ :: ⟨.number "2" 2 false, r⟩ :: rest) rest :=
    .more nofun (by decide) (.one (.primary (.place .var))) (.primary .number)
  have difference {p q r s t : Pos} {rest : List Token} :
      Grammar.IsExpr (⟨.number "1" 1 false, p⟩ :: ⟨.symbol .minus, q⟩ :: ⟨.ident "x", r⟩ :: ⟨.symbol .star, s⟩ ::
        ⟨.number "2" 2 false, t⟩ :: rest) rest (.binary .sub (.number 1 false) sampleProduct) :=
    .one (.one (.one (.one (.more nofun (by decide) (.one (.one (.primary .number))) product))))
  have body : Grammar.Runs Grammar.IsClosed
      (.stmts [.assign (.var "x") (.expr (.binary .sub (.number 1 false) sampleProduct)), .return none])
      (sampleTokens.drop 8) (sampleTokens.drop 18) :=
    .cons (.stmt (.assign .var (.expr difference)) .semicolon) (.cons (.stmt (.leave .semicolon) .semicolon) .nil)
  exact .cons (.global (.mk (.mk .int))) (.cons (.function .void .nil .nil body) .nil)

/-- In `sampleText` the product binds more tightly than the difference, and `return` has no value. -/
theorem read_exactly_sample :
    (Program.ofTokens (withoutComments (tokens "f" sampleText)) = (sampleProgram, none) ∧
      Grammar.IsProgram Grammar.IsAny (withoutComments (tokens "f" sampleText)) sampleProgram ∧
      ∀ t ∈ withoutComments (tokens "f" sampleText), Grammar.IsProper t.kind) ∧
    (Program.ofText "f" sampleText = .ok sampleProgram ∧
      Grammar.IsProgram Grammar.IsAny (codeTokens "f" sampleText) sampleProgram ∧
      ∀ t ∈ codeTokens "f" sampleText, Grammar.IsProper t.kind) ∧
    (Grammar.IsProgram Grammar.IsClosed sampleTokens sampleProgram ∧
      Program.ofTokens (withoutComments sampleTokens) = (sampleProgram, none)) := by
  have code : codeTokens "f" sampleText = sampleTokens := by decide +kernel
  have tokensRead : Program.ofTokens (codeTokens "f" sampleText) = (sampleProgram, none) := by
    rw [code]
    rfl
  have textRead : Program.ofText "f" sampleText = .ok sampleProgram := ofText_eq_ok_iff.2 tokensRead
  exact ⟨⟨tokensRead, (read_exactly sampleProgram).1 _ tokensRead⟩,
    ⟨textRead, (read_exactly sampleProgram).2.1 _ _ textRead⟩,
    isProgram_sample, (read_exactly sampleProgram).2.2 _ isProgram_sample⟩

end M32.Lang
