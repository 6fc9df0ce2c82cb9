/-
  What the grammar derives is read: statements.

  A statement is read to its end if another one or a closing brace follows (`Next`).  Without the semicolon that may follow it,
  it is read if that semicolon comes next, too (`Ready`): none of these tokens continues an expression or is `else` or `except`.
  A `return` without a value needs a semicolon or a closing brace (`isRead_of_runs`), or what follows would be its value.
-/
import M32.Proofs.Lang.Grammar.Read

namespace M32.Lang.Parse

open Grammar

variable {ts mid rest : List Token} {room : Nat}

/-! ## Parts of statements -/

theorem call_read {c : Call} (h : IsCall ts rest c) (hr : ts.length ≤ room) : call room ts = .ok (c, rest) := by
  cases h with
  | @mk p q r ts rest name args hargs =>
    rw [List.length_cons, List.length_cons] at hr
    have read : commaList room .rparen (expr room) ts = .ok (args, ⟨.symbol .rparen, r⟩ :: rest) :=
      commaList_read (I := Ends 0) hargs Derives.spans (fun h => head_ne_of_isExpr h rfl)
        (fun h le ends => expr_read h (by omega) ends) (ends_of_tie rfl 0) (ends_of_tie rfl 0 r rest) (by decide) (by omega)
    rw [call, bind_of_ok (ident_read name p _), bind_of_ok (symbol_read .lparen q ts), bind_of_ok read,
      bind_of_ok (symbol_read .rparen r rest)]
    rfl

theorem gpr_read {n : Nat} (h : IsGpr ts rest n) : gpr ts = .ok (n, rest) := by
  cases h with
  | @mk p q r ts rest n hn =>
    rw [gpr, bind_of_ok (word_read .gpr p _), bind_of_ok (symbol_read .lparen q ts), bind_of_ok (number_read hn),
      bind_of_ok (symbol_read .rparen r rest)]
    rfl

theorem spared_read {ns : List Nat} (h : IsSpared ts rest ns) (hr : ts.length ≤ room)
    (next : head rest ≠ some (.keyword .except)) : spared room ts = .ok (ns, rest) := by
  cases h with
  | nothing =>
    rw [spared, bind_of_ok (takesWord_false next), if_neg Bool.false_ne_true]
    rfl
  | @except p q r ts rest ns hns =>
    rw [List.length_cons, List.length_cons] at hr
    have starts {ts mid : List Token} {n : Nat} (h : IsNumber ts mid n) : head ts ≠ some (.symbol .rparen) := by
      cases h with
      | mk => nofun
    have read : commaList room .rparen number ts = .ok (ns, ⟨.symbol .rparen, r⟩ :: rest) :=
      commaList_read (I := fun _ => True) hns IsNumber.spans starts (fun h _ _ => number_read h)
        (fun _ _ => trivial) trivial (by decide) (by omega)
    rw [spared, bind_of_ok (takesWord_true .except p _), if_pos rfl, bind_of_ok (symbol_read .lparen q ts), bind_of_ok read,
      bind_of_ok (symbol_read .rparen r rest)]
    rfl

theorem seesCall_true (name : String) (p q : Pos) (ts : List Token) :
    seesCall (⟨.ident name, p⟩ :: ⟨.symbol .lparen, q⟩ :: ts) = .ok (true, ⟨.ident name, p⟩ :: ⟨.symbol .lparen, q⟩ :: ts) := rfl

/-- Nothing looks like a call that is not a name before an opening parenthesis. -/
theorem seesCall_false (h : ∀ name p q tail, ts ≠ ⟨.ident name, p⟩ :: ⟨.symbol .lparen, q⟩ :: tail) :
    seesCall ts = .ok (false, ts) := by
  match ts, h with
  | [], _ => rfl
  | [⟨k, p⟩], _ => cases k <;> rfl
  | ⟨k, p⟩ :: ⟨k', q⟩ :: tail, h =>
    cases k with
    | ident name =>
      have other : k' ≠ .symbol .lparen := by
        rintro rfl
        exact h name p q tail rfl
      have second : peek? 1 (⟨.ident name, p⟩ :: ⟨k', q⟩ :: tail) = .ok (some k', ⟨.ident name, p⟩ :: ⟨k', q⟩ :: tail) := rfl
      rw [seesCall, bind_of_ok (peek_read _), bind_of_ok second]
      cases k' with
      | symbol s =>
        cases s with
        | lparen => exact absurd rfl other
        | _ => rfl
      | _ => rfl
    | _ => rfl

/-- What may come after a statement: another one, a closing brace or a semicolon. -/
def isReady : TokenKind → Bool
  | .symbol .rcurly | .symbol .semicolon | .keyword .while | .keyword .if | .keyword .return | .keyword .gpr | .ident _ => true
  | _ => false

/-- Whether something may follow a statement that has no semicolon yet. -/
def Ready (ts : List Token) : Prop := ∃ t tail, ts = t :: tail ∧ isReady t.kind = true

theorem Ready.head_ne (h : Ready ts) {k : TokenKind} (hk : isReady k = false) : head ts ≠ some k := by
  obtain ⟨t, tail, rfl, ready⟩ := h
  intro he
  rw [Option.some.inj he, hk] at ready
  cases ready

theorem Ready.ends (h : Ready ts) (n : Nat) : Ends n ts := by
  intro s hs k hk
  have ready : isReady (.symbol s) = true := by
    obtain ⟨t, tail, rfl, ready⟩ := h
    rwa [← Option.some.inj hs]
  -- of the symbols only a closing brace and a semicolon are ready, and these continue nothing
  revert ready hk
  cases s <;> simp [isReady, tie?]

theorem assigned_read {x : Place} {s : Stmt} (h : IsAssigned x ts rest s) (hr : ts.length ≤ room) (next : Ready rest) :
    assigned room x ts = .ok (s, rest) := by
  cases h with
  | @gpr _ mid _ n ns hn hns =>
    have here : head ts = some (.keyword .gpr) := by
      cases hn with
      | mk => rfl
    have shorter := hn.spans.2
    rw [assigned, bind_of_ok (peek_read ts), if_pos here, bind_of_ok (gpr_read hn),
      bind_of_ok (spared_read hns (by omega) (next.head_ne rfl))]
    rfl
  | @new p ts _ t ht =>
    rw [List.length_cons] at hr
    rw [assigned, bind_of_ok (peek_read _), if_neg nofun, bind_of_ok (takesWord_true .new p ts), if_pos rfl,
      bind_of_ok (ty_read ht (by omega) (next.head_ne rfl) (next.head_ne rfl))]
    rfl
  | @call _ _ c hc =>
    have read := call_read hc hr
    cases hc with
    | @mk p q r ts _ name args _ =>
      have name_first : takesWord .new (⟨.ident name, p⟩ :: ⟨.symbol .lparen, q⟩ :: ts)
          = .ok (false, ⟨.ident name, p⟩ :: ⟨.symbol .lparen, q⟩ :: ts) := takesWord_false nofun
      rw [assigned, bind_of_ok (peek_read _), if_neg nofun, bind_of_ok name_first, if_neg Bool.false_ne_true,
        bind_of_ok (seesCall_true name p q ts), if_pos rfl, bind_of_ok read]
      rfl
  | expr he =>
    -- what starts like a call would end before the parenthesis, and no statement ends there
    have no_call : ∀ name p q tail, ts ≠ ⟨.ident name, p⟩ :: ⟨.symbol .lparen, q⟩ :: tail := by
      intro name p q tail hts
      rw [rest_of_call he hts] at next
      exact next.head_ne (k := .symbol .lparen) rfl rfl
    rw [assigned, bind_of_ok (peek_read ts), if_neg (head_ne_of_isExpr he rfl),
      bind_of_ok (takesWord_false (head_ne_of_isExpr he rfl)), if_neg Bool.false_ne_true,
      bind_of_ok (seesCall_false no_call), if_neg Bool.false_ne_true, bind_of_ok (expr_read he hr (next.ends 0))]
    rfl

/-! ## Statements -/

/-- Whether a token opens a statement. -/
def opensStmt : TokenKind → Bool
  | .keyword .while | .keyword .if | .keyword .return | .keyword .gpr | .ident _ => true
  | _ => false

theorem isReady_of_opensStmt {k : TokenKind} (h : opensStmt k = true) : isReady k = true := by
  unfold opensStmt at h
  split at h
  · rfl
  · rfl
  · rfl
  · rfl
  · rfl
  · cases h

/-- Whether another statement or a closing brace comes next. -/
def Next (ts : List Token) : Prop := Ready ts ∧ head ts ≠ some (.symbol .semicolon)

theorem next_of_opensStmt {t : Token} (h : opensStmt t.kind = true) (tail : List Token) : Next (t :: tail) := by
  refine ⟨⟨t, tail, rfl, isReady_of_opensStmt h⟩, ?_⟩
  intro he
  rw [Option.some.inj he] at h
  cases h

theorem next_rcurly (p : Pos) (ts : List Token) : Next (⟨.symbol .rcurly, p⟩ :: ts) := ⟨⟨_, _, rfl, rfl⟩, nofun⟩

/-- Whether a phrase of statements may start with some tokens, as far as statements go. -/
def OpensClause : Clause → List Token → Prop
  | .bare _, ts | .stmt _, ts => ∃ t tail, ts = t :: tail ∧ opensStmt t.kind = true
  | .block _, ts => ∃ p tail, ts = ⟨.symbol .lcurly, p⟩ :: tail
  | .stmts _, _ => True

theorem opens_of_runs {after : List Token → Prop} {c : Clause} (h : Runs after c ts rest) : OpensClause c ts := by
  induction h with
  | «while» | ifThen | ifElse | leave | give => exact ⟨_, _, rfl, rfl⟩
  | toGpr hn =>
    cases hn with
    | mk => exact ⟨_, _, rfl, rfl⟩
  | call hc =>
    cases hc with
    | mk => exact ⟨_, _, rfl, rfl⟩
  | assign hx =>
    obtain ⟨t, tail, hts, name, ht⟩ := opens_of_derives hx
    exact ⟨t, tail, hts, by rw [ht]; rfl⟩
  | stmt _ _ ih => exact ih
  | nil | cons => trivial
  | block => exact ⟨_, _, rfl⟩

theorem ends_of_block {after : List Token → Prop} {ss : List Stmt} (h : Runs after (.block ss) ts rest) (n : Nat) : Ends n ts := by
  obtain ⟨p, tail, rfl⟩ := opens_of_runs h
  exact ends_of_tie rfl n p tail

/-- A statement that is read, if another one or a closing brace follows. -/
def ReadStmt : Rule Stmt := fun ts rest s =>
  ∀ room depth, ts.length ≤ room → ts.length ≤ depth → Next rest → stmt room depth ts = .ok (s, rest)

/-- Whether a phrase of statements is read, given enough steps and what may follow it. -/
def IsReadClause : Clause → List Token → List Token → Prop
  | .bare s, ts, rest => ∀ room depth, ts.length ≤ room → ts.length ≤ depth + 1 → Ready rest →
      openStmt room (stmt room depth) ts = .ok (s, rest)
  | .stmt s, ts, rest => ReadStmt ts rest s
  | .stmts ss, ts, rest => Many (fun ts rest s => Runs IsClosed (.stmt s) ts rest ∧ ReadStmt ts rest s) ts rest ss
  | .block ss, ts, rest => ∀ room depth, ts.length ≤ room → ts.length ≤ depth + 1 →
      blockOf room (stmt room depth) ts = .ok (ss, rest)

theorem stmts_read {ss : List Stmt} {p : Pos} (h : IsReadClause (.stmts ss) ts (⟨.symbol .rcurly, p⟩ :: rest)) {depth : Nat}
    (hr : ts.length ≤ room) (hd : ts.length ≤ depth) :
    upTo room .rcurly (stmt room depth) ts = .ok (ss, ⟨.symbol .rcurly, p⟩ :: rest) := by
  refine upTo_read (I := Next) h (fun hs => hs.1.covers) ?_ ?_ (next_rcurly p rest) hr
  · rintro ts mid s ⟨hs, -⟩
    obtain ⟨t, tail, rfl, opens⟩ := opens_of_runs hs
    refine ⟨next_of_opensStmt opens tail, ?_⟩
    intro he
    rw [Option.some.inj he] at opens
    cases opens
  · rintro us mid s ⟨-, read⟩ le next
    exact read room depth (by omega) (by omega) next

/-! ### Simple statements -/

theorem isRead_leave {p : Pos} (closed : IsClosed rest) : IsReadClause (.bare (.return none)) (⟨.keyword .return, p⟩ :: rest) rest := by
  intro room depth _ _ _
  rw [openStmt, bind_of_ok (peek_read _)]
  show (skip >>= _) _ = _
  rw [bind_of_ok (skip_read _ _), bind_of_ok (sees_read .semicolon rest), bind_of_ok (sees_read .rcurly rest), if_pos]
  · rfl
  · cases closed <;> rfl

/-- No expression starts with a semicolon or a closing brace, so a value is read as one. -/
theorem isRead_give {p : Pos} {e : Expr} (he : IsExpr ts rest e) :
    IsReadClause (.bare (.return (some e))) (⟨.keyword .return, p⟩ :: ts) rest := by
  intro room depth hr hd ready
  rw [List.length_cons] at hr
  rw [openStmt, bind_of_ok (peek_read _)]
  show (skip >>= _) _ = _
  rw [bind_of_ok (skip_read _ _), bind_of_ok (sees_read .semicolon ts), bind_of_ok (sees_read .rcurly ts),
    decide_eq_false (head_ne_of_isExpr he rfl), decide_eq_false (head_ne_of_isExpr he rfl), Bool.or_false,
    if_neg Bool.false_ne_true, bind_of_ok (expr_read he (by omega) (ready.ends 0))]
  rfl

theorem isRead_toGpr {p : Pos} {n : Nat} {x : Place} {ns : List Nat} {last : List Token}
    (hn : IsGpr ts (⟨.symbol .assign, p⟩ :: mid) n) (hx : IsPlace mid last x) (hns : IsSpared last rest ns) :
    IsReadClause (.bare (.toGpr n x ns)) ts rest := by
  intro room depth hr hd ready
  have shorter := hn.spans.2
  have shorter' := hx.spans.2
  rw [List.length_cons] at shorter
  have ends : Ends 6 last := by
    cases hns with
    | nothing => exact ready.ends 6
    | except => nofun
  have here : head ts = some (.keyword .gpr) := by
    cases hn with
    | mk => rfl
  rw [openStmt, bind_of_ok (peek_read _), here]
  show (gpr >>= _) _ = _
  rw [bind_of_ok (gpr_read hn), bind_of_ok (symbol_read .assign p mid), bind_of_ok (place_read hx (by omega) ends),
    bind_of_ok (spared_read hns (by omega) (ready.head_ne rfl))]
  rfl

theorem isRead_call {c : Call} (hc : IsCall ts rest c) : IsReadClause (.bare (.call c)) ts rest := by
  intro room depth hr hd _
  have read := call_read hc hr
  cases hc with
  | @mk p q r ts _ name args _ =>
    rw [openStmt, bind_of_ok (peek_read _)]
    show (seesCall >>= _) _ = _
    rw [bind_of_ok (seesCall_true name p q ts), if_pos rfl, bind_of_ok read]
    rfl

theorem isRead_assign {p : Pos} {x : Place} {s : Stmt} (hx : IsPlace ts (⟨.symbol .assign, p⟩ :: mid) x) (hs : IsAssigned x mid rest s) :
    IsReadClause (.bare s) ts rest := by
  intro room depth hr hd ready
  have shorter := hx.spans.2
  rw [List.length_cons] at shorter
  obtain ⟨t, tail, hts, name, ht⟩ := opens_of_derives hx
  have here : head ts = some (.ident name) := by
    rw [hts]
    exact congrArg some ht
  -- a place that starts like a call would end before the parenthesis, not before `=`
  have no_call : ∀ name p q tail, ts ≠ ⟨.ident name, p⟩ :: ⟨.symbol .lparen, q⟩ :: tail := by
    intro name p q tail hts
    cases rest_of_call hx hts
  rw [openStmt, bind_of_ok (peek_read _), here]
  show (seesCall >>= _) _ = _
  rw [bind_of_ok (seesCall_false no_call), if_neg Bool.false_ne_true,
    bind_of_ok (place_read hx hr (ends_of_tie rfl 6 p mid)), bind_of_ok (symbol_read .assign p mid)]
  exact assigned_read hs (by omega) ready

/-! ### All statements -/

/-- A statement with the semicolon that may follow it, or without: what comes next may follow the bare statement. -/
theorem isRead_stmt {s : Stmt} (hs : Runs IsClosed (.bare s) ts mid) (hm : MaySemicolon mid rest)
    (ih : IsReadClause (.bare s) ts mid) : IsReadClause (.stmt s) ts rest := by
  intro room depth hr hd next
  have ready : Ready mid := by
    cases hm with
    | without => exact next.1
    | semicolon => exact ⟨_, _, rfl, rfl⟩
  have some_token := (hs.covers : Spans _ _).2
  obtain ⟨depth, rfl⟩ := Nat.exists_eq_succ_of_ne_zero (show depth ≠ 0 by omega)
  rw [stmt, bind_of_ok (ih room depth hr hd ready)]
  cases hm with
  | without =>
    rw [bind_of_ok (takes_false next.2)]
    rfl
  | @semicolon p =>
    rw [bind_of_ok (takes_true .semicolon p rest)]
    rfl

/-- A phrase of statements is read, if it ends here. -/
theorem isRead_of_runs {c : Clause} (h : Runs IsClosed c ts rest) : IsReadClause c ts rest := by
  induction h with
  | @«while» p e ss ts mid rest he hss ih =>
    intro room depth hr hd _
    have shorter := he.spans.2
    rw [List.length_cons] at hr hd
    rw [openStmt, bind_of_ok (peek_read _)]
    show (skip >>= _) _ = _
    rw [bind_of_ok (skip_read _ _), bind_of_ok (expr_read he (by omega) (ends_of_block hss 0)),
      bind_of_ok (ih room depth (by omega) (by omega))]
    rfl
  | @ifThen p e ss ts mid rest he hss ih =>
    intro room depth hr hd ready
    have shorter := he.spans.2
    rw [List.length_cons] at hr hd
    rw [openStmt, bind_of_ok (peek_read _)]
    show (skip >>= _) _ = _
    -- what may follow a statement is no `else`
    rw [bind_of_ok (skip_read _ _), bind_of_ok (expr_read he (by omega) (ends_of_block hss 0)),
      bind_of_ok (ih room depth (by omega) (by omega)), bind_of_ok (takesWord_false (ready.head_ne rfl)),
      if_neg Bool.false_ne_true]
    rfl
  | @ifElse p q e ss os ts mid other rest he hss hos ih ih' =>
    intro room depth hr hd _
    have shorter := he.spans.2
    have shorter' := (hss.covers : Spans _ _).2
    rw [List.length_cons] at hr hd shorter'
    rw [openStmt, bind_of_ok (peek_read _)]
    show (skip >>= _) _ = _
    rw [bind_of_ok (skip_read _ _), bind_of_ok (expr_read he (by omega) (ends_of_block hss 0)),
      bind_of_ok (ih room depth (by omega) (by omega)), bind_of_ok (takesWord_true .else q other), if_pos rfl,
      bind_of_ok (ih' room depth (by omega) (by omega))]
    rfl
  | leave closed => exact isRead_leave closed
  | give he => exact isRead_give he
  | toGpr hn hx hns => exact isRead_toGpr hn hx hns
  | call hc => exact isRead_call hc
  | assign hx hs => exact isRead_assign hx hs
  | stmt hs hm ih => exact isRead_stmt hs hm ih
  | nil => exact .nil
  | cons hs _ ihs ihss => exact .cons ⟨hs, ihs⟩ ihss
  | @block p q ss ts rest hss ih =>
    intro room depth hr hd
    rw [List.length_cons] at hr hd
    rw [blockOf, bind_of_ok (symbol_read .lcurly p ts), bind_of_ok (stmts_read ih (by omega) (by omega)),
      bind_of_ok (symbol_read .rcurly q rest)]
    rfl

end M32.Lang.Parse
