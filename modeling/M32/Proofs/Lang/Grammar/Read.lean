/-
  What the grammar derives is read: types and expressions.

  The grammar does not say where a phrase ends, so each reader is given what may come next.
  1. `Ends n` says that the next token continues no expression of `n` or more: layers count from 0, and what goes on in a place
     counts most.  A phrase of a layer is read to its end if it `Ends` there (`isRead_of_derives`).
  2. A loop that has read a part of its phrase goes on with the rest of its steps (`extend_next`): the phrase of a loop is
     derived from the left, as it is read, so the induction says what steps are left.
-/
import M32.Proofs.Lang.Grammar.Derived

namespace M32.Lang.Parse

open Grammar

variable {α β : Type} {ts mid rest : List Token} {R : Rule α} {room : Nat}

/-! ## Tokens -/

/-- The kind of the next token. -/
def head (ts : List Token) : Option TokenKind := ts[0]?.map Token.kind

theorem bind_of_ok {x : Parse α} {f : α → Parse β} {a : α} (h : x ts = .ok (a, mid)) : (x >>= f) ts = f a mid := by
  show Except.bind (x ts) _ = _
  rw [h]
  rfl

theorem peek_read (ts : List Token) : peek? 0 ts = .ok (head ts, ts) := rfl

theorem skip_read (t : Token) (ts : List Token) : skip (t :: ts) = .ok ((), ts) := rfl

theorem accept_none {k : TokenKind} (h : head ts ≠ some k) : accept? (fun k' => k' = k) ts = .ok (none, ts) := by
  cases ts with
  | nil => rfl
  | cons t ts =>
    have other : t.kind ≠ k := fun he => h (congrArg some he)
    rw [accept?, if_neg (by rwa [decide_eq_true_iff])]

theorem accept_some (k : TokenKind) (p : Pos) (ts : List Token) :
    accept? (fun k' => k' = k) (⟨k, p⟩ :: ts) = .ok (some ⟨k, p⟩, ts) := by
  rw [accept?, if_pos (decide_eq_true rfl)]

theorem takes_false {s : Symbol} (h : head ts ≠ some (.symbol s)) : takes s ts = .ok (false, ts) := by
  rw [takes, bind_of_ok (accept_none h)]
  rfl

theorem takes_other (s other : Symbol) (h : other ≠ s) (p : Pos) (ts : List Token) :
    takes s (⟨.symbol other, p⟩ :: ts) = .ok (false, ⟨.symbol other, p⟩ :: ts) := by
  apply takes_false
  intro he
  cases he
  exact h rfl

theorem takes_true (s : Symbol) (p : Pos) (ts : List Token) : takes s (⟨.symbol s, p⟩ :: ts) = .ok (true, ts) := by
  rw [takes, bind_of_ok (accept_some _ p ts)]
  rfl

theorem takesWord_false {k : Keyword} (h : head ts ≠ some (.keyword k)) : takesWord k ts = .ok (false, ts) := by
  rw [takesWord, bind_of_ok (accept_none h)]
  rfl

theorem takesWord_true (k : Keyword) (p : Pos) (ts : List Token) : takesWord k (⟨.keyword k, p⟩ :: ts) = .ok (true, ts) := by
  rw [takesWord, bind_of_ok (accept_some _ p ts)]
  rfl

theorem require_read (k : TokenKind) (p : Pos) (ts : List Token) :
    require (fun k' => k' = k) (⟨k, p⟩ :: ts) = .ok (⟨k, p⟩, ts) := by
  rw [require, if_pos (decide_eq_true rfl)]

theorem symbol_read (s : Symbol) (p : Pos) (ts : List Token) : symbol s (⟨.symbol s, p⟩ :: ts) = .ok ((), ts) := by
  rw [symbol, bind_of_ok (require_read _ p ts)]
  rfl

theorem word_read (k : Keyword) (p : Pos) (ts : List Token) : word k (⟨.keyword k, p⟩ :: ts) = .ok ((), ts) := by
  rw [word, bind_of_ok (require_read _ p ts)]
  rfl

theorem ident_read (name : String) (p : Pos) (ts : List Token) : ident (⟨.ident name, p⟩ :: ts) = .ok (name, ts) := rfl

theorem number_read {n : Nat} (h : IsNumber ts rest n) : number ts = .ok (n, rest) := by
  cases h with
  | mk => rfl

theorem sees_read (s : Symbol) (ts : List Token) : sees s ts = .ok (decide (head ts = some (.symbol s)), ts) := rfl

/-! ## Repetition -/

/-- The phrases of some rule one after another.  `I` is what has to come after each of them. -/
theorem many_read {step : Parse (Option α)} {I : List Token → Prop} {as : List α} (h : Many R ts rest as)
    (spans : ∀ {ts mid a}, R ts mid a → Spans ts mid) (starts : ∀ {ts mid a}, R ts mid a → I ts)
    {bound : Nat} (read : ∀ {ts mid a}, R ts mid a → ts.length ≤ bound → I mid → step ts = .ok (some a, mid))
    (next : I rest) (stop : step rest = .ok (none, rest)) (hb : ts.length ≤ bound) (hr : ts.length ≤ room) :
    many step room ts = .ok (as, rest) := by
  -- what is left of the steps is enough for what is left of the tokens
  induction h generalizing room with
  | nil =>
    cases room with
    | zero => rfl
    | succ room =>
      rw [many, bind_of_ok stop]
      rfl
  | @cons ts mid rest a as ha has ih =>
    have shorter := (spans ha).2
    have follows : I mid := by
      cases has with
      | nil => exact next
      | cons hb _ => exact starts hb
    cases room with
    | zero => omega
    | succ room =>
      rw [many, bind_of_ok (read ha hb follows)]
      dsimp only
      rw [bind_of_ok (ih next stop (by omega) (by omega))]
      rfl

theorem extend_stop {step : α → Parse (Option α)} {a : α} (h : step a ts = .ok (none, ts)) (n : Nat) :
    extend step n a ts = .ok (a, ts) := by
  cases n with
  | zero => rfl
  | succ n =>
    rw [extend, bind_of_ok h]
    rfl

theorem extend_step {step : α → Parse (Option α)} {a b : α} (h : step a ts = .ok (some b, mid)) (n : Nat) :
    extend step (n + 1) a ts = extend step n b mid := by
  rw [extend, bind_of_ok h]

/-- A step that is taken, and steps enough for the tokens that are left. -/
theorem extend_next {step : α → Parse (Option α)} {a b : α} (h : step a ts = .ok (some b, mid)) (shorter : mid.length < ts.length)
    {n : Nat} (hn : ts.length ≤ n) : ∃ m, mid.length ≤ m ∧ extend step n a ts = extend step m b mid := by
  obtain ⟨m, rfl⟩ := Nat.exists_eq_succ_of_ne_zero (show n ≠ 0 by omega)
  exact ⟨m, by omega, extend_step h m⟩

theorem upTo_read {elem : Parse α} {I : List Token → Prop} {close : Symbol} {p : Pos} {as : List α}
    (h : Many R ts (⟨.symbol close, p⟩ :: rest) as) (spans : ∀ {ts mid a}, R ts mid a → Spans ts mid)
    (starts : ∀ {ts mid a}, R ts mid a → I ts ∧ head ts ≠ some (.symbol close))
    (read : ∀ {us mid a}, R us mid a → us.length ≤ ts.length → I mid → elem us = .ok (a, mid))
    (next : I (⟨.symbol close, p⟩ :: rest)) (hr : ts.length ≤ room) :
    upTo room close elem ts = .ok (as, ⟨.symbol close, p⟩ :: rest) := by
  refine many_read h spans (fun ha => (starts ha).1) (fun ha hb hI => ?_) next ?_ (Nat.le_refl _) hr
  · rw [bind_of_ok (sees_read close _), decide_eq_false (starts ha).2, if_neg Bool.false_ne_true, bind_of_ok (read ha hb hI)]
    rfl
  · have here : head (⟨.symbol close, p⟩ :: rest) = some (.symbol close) := rfl
    rw [bind_of_ok (sees_read close _), decide_eq_true here, if_pos rfl]
    rfl

theorem commaList_read {elem : Parse α} {I : List Token → Prop} {close : Symbol} {p : Pos} {as : List α}
    (h : CommaList R ts (⟨.symbol close, p⟩ :: rest) as) (spans : ∀ {ts mid a}, R ts mid a → Spans ts mid)
    (starts : ∀ {ts mid a}, R ts mid a → head ts ≠ some (.symbol close))
    (read : ∀ {us mid a}, R us mid a → us.length ≤ ts.length → I mid → elem us = .ok (a, mid))
    (comma : ∀ p tail, I (⟨.symbol .comma, p⟩ :: tail)) (next : I (⟨.symbol close, p⟩ :: rest)) (other : close ≠ .comma)
    (hr : ts.length ≤ room) :
    commaList room close elem ts = .ok (as, ⟨.symbol close, p⟩ :: rest) := by
  cases h with
  | nil =>
    have here : head (⟨.symbol close, p⟩ :: rest) = some (.symbol close) := rfl
    rw [commaList, bind_of_ok (sees_read close _), decide_eq_true here, if_pos rfl]
    rfl
  | @cons _ mid _ a as ha has =>
    have shorter := (spans ha).2
    have follows : I mid := by
      cases has with
      | nil => exact next
      | cons hb _ =>
        cases hb with
        | mk _ => exact comma _ _
    have more : many (do if ← takes .comma then return some (← elem) else return none) room mid
        = .ok (as, ⟨.symbol close, p⟩ :: rest) := by
      refine many_read (I := I) has (fun h => h.spans spans) ?_ ?_ next ?_ (Nat.le_of_lt shorter)
        (Nat.le_of_lt (Nat.lt_of_lt_of_le shorter hr))
      · rintro us mid b ⟨-⟩
        exact comma _ _
      · rintro us mid b ⟨hb⟩ le hI
        rw [bind_of_ok (takes_true .comma _ _), if_pos rfl, bind_of_ok (read hb (Nat.le_of_succ_le le) hI)]
        rfl
      · have no_comma : head (⟨.symbol close, p⟩ :: rest) ≠ some (.symbol .comma) := by
          intro he
          cases he
          exact other rfl
        rw [bind_of_ok (takes_false no_comma), if_neg Bool.false_ne_true]
        rfl
    rw [commaList, bind_of_ok (sees_read close _), decide_eq_false (starts ha), if_neg Bool.false_ne_true,
      bind_of_ok (read ha (Nat.le_refl _) follows), bind_of_ok more]
    rfl

/-! ## Types -/

theorem tyStep_none {t : Ty} (star : head ts ≠ some (.symbol .star)) (bracket : head ts ≠ some (.symbol .lbracket)) :
    tyStep t ts = .ok (none, ts) := by
  rw [tyStep, bind_of_ok (takes_false star), if_neg Bool.false_ne_true]
  rw [bind_of_ok (takes_false bracket), if_neg Bool.false_ne_true]
  rfl

/-- The steps that are left after a part of a type are enough for the rest. -/
theorem ty_extends {t : Ty} (h : IsTy ts rest t) (hr : ts.length ≤ room) :
    ∃ n, rest.length ≤ n ∧ ty room ts = extend tyStep n t rest := by
  have start {ts rest : List Token} {t : Ty} (h : baseTy ts = .ok (t, rest)) : ty room ts = extend tyStep room t rest := by
    rw [ty, bind_of_ok h]
  induction h with
  | int | uint | bool | char =>
    rw [List.length_cons] at hr
    exact ⟨room, by omega, start rfl⟩
  | struct =>
    rw [List.length_cons, List.length_cons] at hr
    exact ⟨room, by omega, start rfl⟩
  | @pointer p ts rest t ht ih =>
    obtain ⟨n, hn, read⟩ := ih hr
    have step : tyStep t (⟨.symbol .star, p⟩ :: rest) = .ok (some (.pointer t), rest) := by
      rw [tyStep, bind_of_ok (takes_true .star p rest), if_pos rfl]
      rfl
    rw [read]
    exact extend_next step (Nat.lt_succ_self _) hn
  | @array p q ts len rest t m ht hm ih =>
    obtain ⟨n, hn, read⟩ := ih hr
    have step : tyStep t (⟨.symbol .lbracket, p⟩ :: len) = .ok (some (.array t m), rest) := by
      rw [tyStep, bind_of_ok (takes_other .star .lbracket (by decide) p len), if_neg Bool.false_ne_true]
      rw [bind_of_ok (takes_true .lbracket p len), if_pos rfl, bind_of_ok (number_read hm)]
      rw [bind_of_ok (symbol_read .rbracket q rest)]
      rfl
    have shorter := (hm.spans.next trivial).2
    rw [read]
    exact extend_next step (Nat.lt_succ_of_lt shorter) hn

theorem ty_read {t : Ty} (h : IsTy ts rest t) (hr : ts.length ≤ room) (star : head rest ≠ some (.symbol .star))
    (bracket : head rest ≠ some (.symbol .lbracket)) : ty room ts = .ok (t, rest) := by
  obtain ⟨n, -, read⟩ := ty_extends h hr
  rw [read, extend_stop (tyStep_none star bracket)]

theorem decl_read {d : Decl} (h : IsParam ts rest d) (hr : ts.length ≤ room) : decl room ts = .ok (d, rest) := by
  cases h with
  | mk ht =>
    rw [decl, bind_of_ok (ty_read ht hr nofun nofun), bind_of_ok (ident_read _ _ _)]
    rfl

theorem closedDecl_read {d : Decl} (h : IsDecl ts rest d) (hr : ts.length ≤ room) : closedDecl room ts = .ok (d, rest) := by
  cases h with
  | mk hd =>
    rw [closedDecl, bind_of_ok (decl_read hd hr), bind_of_ok (symbol_read .semicolon _ _)]
    rfl

/-! ## Expressions -/

/-- How tightly a symbol binds what stands before it, if it continues an expression. -/
def tie? : Symbol → Option Nat
  | .orOr => some 0
  | .andAnd => some 1
  | .eqEq | .notEq => some 2
  | .less | .greater | .leq | .geq => some 3
  | .plus | .minus => some 4
  | .star | .slash => some 5
  | .lbracket | .period | .deref => some 6
  | _ => none

/-- The place of a layer, counted from the one that binds loosely. -/
def rank : Layer → Nat
  | .or => 0
  | .and => 1
  | .eq => 2
  | .relat => 3
  | .add => 4
  | .mul => 5

theorem tie?_of_mem_ops {l : Layer} {s : Symbol} {op : BinaryOp} (h : (s, op) ∈ l.ops) : tie? s = some (rank l) := by
  obtain ⟨mem, rfl⟩ := Layer.mem_ops_iff.1 h
  revert mem
  cases l <;> cases op <;> simp [Layer.tier, BinaryOp.symbol, tie?, rank]

/-- Whether the next token continues no expression that binds as tightly as `n` or more. -/
def Ends (n : Nat) (ts : List Token) : Prop := ∀ s, head ts = some (.symbol s) → ∀ k, tie? s = some k → k < n

theorem Ends.mono {m n : Nat} (h : Ends m ts) (le : m ≤ n) : Ends n ts := fun s hs k hk => Nat.lt_of_lt_of_le (h s hs k hk) le

/-- A symbol that continues no expression ends each of them. -/
theorem ends_of_tie {s : Symbol} (h : tie? s = none) (n : Nat) (p : Pos) (ts : List Token) : Ends n (⟨.symbol s, p⟩ :: ts) := by
  intro s' hs k hk
  cases hs
  rw [h] at hk
  cases hk

theorem ends_op {l : Layer} {s : Symbol} {op : BinaryOp} (h : (s, op) ∈ l.ops) (p : Pos) (ts : List Token) :
    Ends (rank l + 1) (⟨.symbol s, p⟩ :: ts) := by
  intro s' hs k hk
  cases hs
  rw [tie?_of_mem_ops h] at hk
  cases hk
  exact Nat.lt_succ_self _

theorem Ends.head_ne {n k : Nat} {s : Symbol} (h : Ends n ts) (hs : tie? s = some k) (le : n ≤ k) : head ts ≠ some (.symbol s) :=
  fun hh => Nat.not_lt.2 le (h s hh k hs)

/-! ### Steps -/

theorem tierStep_none {l : Layer} {inner : Parse Expr} {left : Expr} (h : Ends (rank l) ts) :
    l.tier.step inner left ts = .ok (none, ts) := by
  have no_op : (head ts).bind l.tier.op? = none := by
    cases hop : (head ts).bind l.tier.op? with
    | none => rfl
    | some op =>
      obtain ⟨k, hk, hop⟩ := Option.bind_eq_some_iff.1 hop
      obtain ⟨s, rfl, mem⟩ := Layer.op?_eq_some_iff.1 hop
      exact absurd (h s hk _ (tie?_of_mem_ops mem)) (Nat.lt_irrefl _)
  rw [Tier.step, bind_of_ok (peek_read ts), no_op]
  rfl

theorem tierStep_some {l : Layer} {inner : Parse Expr} {left right : Expr} {s : Symbol} {op : BinaryOp} {p : Pos}
    (mem : (s, op) ∈ l.ops) (h : inner mid = .ok (right, rest)) :
    l.tier.step inner left (⟨.symbol s, p⟩ :: mid) = .ok (some (.binary op left right), rest) := by
  have found : (head (⟨.symbol s, p⟩ :: mid)).bind l.tier.op? = some op := Layer.op?_eq_some_iff.2 ⟨s, rfl, mem⟩
  rw [Tier.step, bind_of_ok (peek_read _), found]
  dsimp only
  rw [bind_of_ok (skip_read _ _), bind_of_ok h]
  rfl

theorem placeStep_none {expr : Parse Expr} {x : Place} (h : Ends 6 ts) : placeStep expr x ts = .ok (none, ts) := by
  rw [placeStep, bind_of_ok (takes_false (h.head_ne (s := .lbracket) rfl (Nat.le_refl 6))), if_neg Bool.false_ne_true]
  rw [bind_of_ok (takes_false (h.head_ne (s := .period) rfl (Nat.le_refl 6))), if_neg Bool.false_ne_true]
  rw [bind_of_ok (takes_false (h.head_ne (s := .deref) rfl (Nat.le_refl 6))), if_neg Bool.false_ne_true]
  rfl

theorem placeStep_index {expr : Parse Expr} {x : Place} {i : Expr} {p q : Pos}
    (h : expr mid = .ok (i, ⟨.symbol .rbracket, q⟩ :: rest)) :
    placeStep expr x (⟨.symbol .lbracket, p⟩ :: mid) = .ok (some (.index x i), rest) := by
  rw [placeStep, bind_of_ok (takes_true .lbracket p mid), if_pos rfl, bind_of_ok h, bind_of_ok (symbol_read .rbracket q rest)]
  rfl

theorem placeStep_field {expr : Parse Expr} {x : Place} {name : String} {p q : Pos} :
    placeStep expr x (⟨.symbol .period, p⟩ :: ⟨.ident name, q⟩ :: rest) = .ok (some (.field x name), rest) := by
  rw [placeStep, bind_of_ok (takes_other .lbracket .period (by decide) p _), if_neg Bool.false_ne_true]
  rw [bind_of_ok (takes_true .period p _), if_pos rfl, bind_of_ok (ident_read name q rest)]
  rfl

theorem placeStep_deref {expr : Parse Expr} {x : Place} {p : Pos} :
    placeStep expr x (⟨.symbol .deref, p⟩ :: rest) = .ok (some (.deref x), rest) := by
  rw [placeStep, bind_of_ok (takes_other .lbracket .deref (by decide) p rest), if_neg Bool.false_ne_true]
  rw [bind_of_ok (takes_other .period .deref (by decide) p rest), if_neg Bool.false_ne_true]
  rw [bind_of_ok (takes_true .deref p rest), if_pos rfl]
  rfl

/-! ### First tokens -/

/-- Whether a token opens an expression. -/
def opensExpr : TokenKind → Bool
  | .symbol .bang | .symbol .minus | .symbol .lparen | .number .. | .keyword .true | .keyword .false | .char _ | .ident _ => true
  | _ => false

/-- Whether a token opens a phrase of an expression.  Places start with a name. -/
def Opens : Phrase → TokenKind → Prop
  | .lvalue _, k => ∃ name, k = .ident name
  | _, k => opensExpr k = true

theorem opens_expr {x : Phrase} {k : TokenKind} (h : Opens x k) : opensExpr k = true := by
  cases x with
  | lvalue x =>
    obtain ⟨name, rfl⟩ := h
    rfl
  | layer | unary | primary => exact h

theorem opens_of_derives {x : Phrase} (h : Derives x ts rest) : ∃ t tail, ts = t :: tail ∧ Opens x t.kind := by
  induction h with
  | one _ ih | primary _ ih | place _ ih =>
    obtain ⟨t, tail, hts, opens⟩ := ih
    exact ⟨t, tail, hts, opens_expr opens⟩
  | more _ _ _ _ ih _ | two _ _ _ ih _ | index _ _ ih _ | field _ ih | deref _ ih => exact ih
  | not | neg | number | true | false | char | parens => exact ⟨_, _, rfl, rfl⟩
  | var => exact ⟨_, _, rfl, _, rfl⟩

/-- A phrase of an expression that starts like a call is the name alone. -/
theorem rest_of_call {x : Phrase} (h : Derives x ts rest) {name : String} {p q : Pos} {tail : List Token}
    (hts : ts = ⟨.ident name, p⟩ :: ⟨.symbol .lparen, q⟩ :: tail) : rest = ⟨.symbol .lparen, q⟩ :: tail := by
  induction h with
  | one _ ih | primary _ ih | place _ ih => exact ih hts
  | more _ mem _ _ ih _ | two mem _ _ ih _ =>
    -- a parenthesis is no operator
    cases ih hts
    cases tie?_of_mem_ops mem
  | index _ _ ih _ | field _ ih | deref _ ih => cases ih hts
  | not | neg | number | true | false | char | parens => cases hts
  | var =>
    cases hts
    rfl

/-! ### Phrases -/

/-- Whether a reader reads a phrase, given enough steps and that it ends here.  A layer and a place may go on: what is said
    is that they do so from here, with steps enough for all tokens that are left. -/
def IsRead : Phrase → List Token → List Token → Prop
  | .layer l e, ts, rest => ∀ room depth, ts.length ≤ room → ts.length ≤ depth → Ends (rank l + 1) rest →
      ∃ n, (l ≠ .relat → rest.length ≤ n) ∧ l.reader room (operand room depth) ts
        = extend (l.tier.step (l.innerReader room (operand room depth))) n e rest
  | .unary e, ts, rest | .primary e, ts, rest => ∀ room depth, ts.length ≤ room → ts.length ≤ depth → Ends 6 rest →
      operand room depth ts = .ok (e, rest)
  | .lvalue x, ts, rest => ∀ room depth, ts.length ≤ room → ts.length ≤ depth + 1 →
      ∃ n, rest.length ≤ n ∧ placeOf room (chains room tiers (operand room depth)) ts
        = extend (placeStep (chains room tiers (operand room depth))) n x rest

theorem layer_read {l : Layer} {e : Expr} (h : IsRead (.layer l e) ts rest) {depth : Nat} (hr : ts.length ≤ room)
    (hd : ts.length ≤ depth) (ends : Ends (rank l) rest) : l.reader room (operand room depth) ts = .ok (e, rest) := by
  obtain ⟨n, -, read⟩ := h room depth hr hd (ends.mono (Nat.le_succ _))
  rw [read, extend_stop (tierStep_none ends)]

theorem inner_read {l : Layer} {e : Expr} (h : IsRead (l.inner e) ts rest) {depth : Nat} (hr : ts.length ≤ room)
    (hd : ts.length ≤ depth) (ends : Ends (rank l + 1) rest) : l.innerReader room (operand room depth) ts = .ok (e, rest) := by
  cases l with
  | or => exact layer_read (l := .and) h hr hd ends
  | and => exact layer_read (l := .eq) h hr hd ends
  | eq => exact layer_read (l := .relat) h hr hd ends
  | relat => exact layer_read (l := .add) h hr hd ends
  | add => exact layer_read (l := .mul) h hr hd ends
  | mul => exact h room depth hr hd ends

/-- The operand of a layer, and as many steps as the layer takes after it. -/
theorem reader_of_inner {l : Layer} {e : Expr} {operand : Parse Expr} (h : l.innerReader room operand ts = .ok (e, rest)) :
    l.reader room operand ts = extend (l.tier.step (l.innerReader room operand)) (if l = .relat then 1 else room) e rest := by
  rw [Layer.reader_eq, Tier.chain, bind_of_ok h, Layer.repeats_tier]
  by_cases relat : l = .relat
  · rw [if_pos relat, decide_eq_false fun h => h relat, if_neg Bool.false_ne_true]
  · rw [if_neg relat, decide_eq_true relat, if_pos rfl]

/-- An operand of the next layer inside: all steps of the layer are left, and one if it does not repeat. -/
theorem isRead_one {l : Layer} {e : Expr} (h : Derives (l.inner e) ts rest) (ih : IsRead (l.inner e) ts rest) :
    IsRead (.layer l e) ts rest := by
  intro room depth hr hd ends
  have shorter := h.spans.2
  refine ⟨_, fun repeats => ?_, reader_of_inner (inner_read ih hr hd ends)⟩
  rw [if_neg repeats]
  omega

/-- An operator of a layer that repeats: the loop that has read the left operand takes one step more. -/
theorem isRead_more {l : Layer} {s : Symbol} {op : BinaryOp} {a b : Expr} {p : Pos} (repeats : l ≠ .relat) (mem : (s, op) ∈ l.ops)
    (ha : Derives (.layer l a) ts (⟨.symbol s, p⟩ :: mid)) (hb : Derives (l.inner b) mid rest)
    (iha : IsRead (.layer l a) ts (⟨.symbol s, p⟩ :: mid)) (ihb : IsRead (l.inner b) mid rest) :
    IsRead (.layer l (.binary op a b)) ts rest := by
  intro room depth hr hd ends
  have shorter := ha.spans.2
  have shorter' := hb.spans.2
  rw [List.length_cons] at shorter
  obtain ⟨n, left, read⟩ := iha room depth hr hd (ends_op mem p mid)
  have right := inner_read ihb (by omega : mid.length ≤ room) (by omega : mid.length ≤ depth) ends
  obtain ⟨m, hm, next⟩ := extend_next (tierStep_some mem right) (Nat.lt_succ_of_lt shorter') (left repeats)
  exact ⟨m, fun _ => hm, read.trans next⟩

/-- A comparison: its one step is taken. -/
theorem isRead_two {s : Symbol} {op : BinaryOp} {a b : Expr} {p : Pos} (mem : (s, op) ∈ Layer.relat.ops)
    (ha : Derives (.layer .add a) ts (⟨.symbol s, p⟩ :: mid)) (iha : IsRead (.layer .add a) ts (⟨.symbol s, p⟩ :: mid))
    (ihb : IsRead (.layer .add b) mid rest) : IsRead (.layer .relat (.binary op a b)) ts rest := by
  intro room depth hr hd ends
  have shorter := ha.spans.2
  rw [List.length_cons] at shorter
  have left := inner_read (l := .relat) iha hr hd (ends_op mem p mid)
  have right := inner_read (l := .relat) ihb (by omega : mid.length ≤ room) (by omega : mid.length ≤ depth) ends
  refine ⟨0, fun repeats => absurd rfl repeats, ?_⟩
  rw [reader_of_inner left, if_pos rfl, extend_step (tierStep_some mem right)]

theorem isRead_place {x : Place} (h : Derives (.lvalue x) ts rest) (ih : IsRead (.lvalue x) ts rest) :
    IsRead (.primary (.place x)) ts rest := by
  intro room depth hr hd ends
  obtain ⟨t, tail, rfl, name, ht⟩ := opens_of_derives h
  rw [List.length_cons] at hd
  obtain ⟨depth, rfl⟩ := Nat.exists_eq_succ_of_ne_zero (show depth ≠ 0 by omega)
  obtain ⟨n, -, read⟩ := ih room depth hr (by rw [List.length_cons]; omega)
  rw [extend_stop (placeStep_none ends)] at read
  have seen : head (t :: tail) = some (.ident name) := congrArg some ht
  rw [operand, bind_of_ok (peek_read _), seen]
  show (placeOf room _ >>= _) _ = _
  rw [bind_of_ok read]
  rfl

theorem isRead_parens {e : Expr} {p q : Pos} (ih : IsRead (.layer .or e) ts (⟨.symbol .rparen, q⟩ :: rest)) :
    IsRead (.primary e) (⟨.symbol .lparen, p⟩ :: ts) rest := by
  intro room depth hr hd _
  rw [List.length_cons] at hr hd
  obtain ⟨depth, rfl⟩ := Nat.exists_eq_succ_of_ne_zero (show depth ≠ 0 by omega)
  have inner := layer_read ih (by omega : ts.length ≤ room) (by omega : ts.length ≤ depth) (ends_of_tie rfl _ q rest)
  rw [Layer.reader_or] at inner
  rw [operand, bind_of_ok (peek_read _)]
  show (skip >>= _) _ = _
  rw [bind_of_ok (skip_read _ _), bind_of_ok inner, bind_of_ok (symbol_read .rparen q rest)]
  rfl

theorem isRead_index {x : Place} {i : Expr} {p q : Pos} (hx : Derives (.lvalue x) ts (⟨.symbol .lbracket, p⟩ :: mid))
    (hi : Derives (.layer .or i) mid (⟨.symbol .rbracket, q⟩ :: rest)) (ihx : IsRead (.lvalue x) ts (⟨.symbol .lbracket, p⟩ :: mid))
    (ihi : IsRead (.layer .or i) mid (⟨.symbol .rbracket, q⟩ :: rest)) : IsRead (.lvalue (.index x i)) ts rest := by
  intro room depth hr hd
  have shorter := hx.spans.2
  have shorter' := (hi.spans.next trivial).2
  rw [List.length_cons] at shorter
  obtain ⟨n, left, read⟩ := ihx room depth hr hd
  have inner := layer_read ihi (by omega : mid.length ≤ room) (by omega : mid.length ≤ depth) (ends_of_tie rfl _ q rest)
  rw [Layer.reader_or] at inner
  rw [read]
  exact extend_next (placeStep_index inner) (Nat.lt_succ_of_lt shorter') left

/-- A phrase of an expression is read, if it ends here. -/
theorem isRead_of_derives {x : Phrase} (h : Derives x ts rest) : IsRead x ts rest := by
  induction h with
  | one h ih => exact isRead_one h ih
  | more repeats mem ha hb iha ihb => exact isRead_more repeats mem ha hb iha ihb
  | two mem ha _ iha ihb => exact isRead_two mem ha iha ihb
  | not _ ih | neg _ ih =>
    intro room depth hr hd ends
    rw [List.length_cons] at hr hd
    obtain ⟨depth, rfl⟩ := Nat.exists_eq_succ_of_ne_zero (show depth ≠ 0 by omega)
    rw [operand, bind_of_ok (peek_read _)]
    show (skip >>= _) _ = _
    rw [bind_of_ok (skip_read _ _), bind_of_ok (ih room depth (by omega) (by omega) ends)]
    rfl
  | primary _ ih => exact ih
  | number | true | false | char =>
    intro room depth hr hd _
    rw [List.length_cons] at hd
    obtain ⟨depth, rfl⟩ := Nat.exists_eq_succ_of_ne_zero (show depth ≠ 0 by omega)
    rfl
  | place h ih => exact isRead_place h ih
  | parens _ ih => exact isRead_parens ih
  | @var name p rest =>
    intro room depth hr _
    rw [List.length_cons] at hr
    refine ⟨room, by omega, ?_⟩
    rw [placeOf, bind_of_ok (ident_read name p rest)]
  | index hx hi ihx ihi => exact isRead_index hx hi ihx ihi
  | field _ ih =>
    intro room depth hr hd
    obtain ⟨n, left, read⟩ := ih room depth hr hd
    rw [read]
    exact extend_next placeStep_field (Nat.lt_succ_of_lt (Nat.lt_succ_self _)) left
  | deref _ ih =>
    intro room depth hr hd
    obtain ⟨n, left, read⟩ := ih room depth hr hd
    rw [read]
    exact extend_next placeStep_deref (Nat.lt_succ_self _) left

theorem expr_read {e : Expr} (h : IsExpr ts rest e) (hr : ts.length ≤ room) (ends : Ends 0 rest) : expr room ts = .ok (e, rest) :=
  layer_read (isRead_of_derives h) hr hr ends

theorem place_read {x : Place} (h : IsPlace ts rest x) (hr : ts.length ≤ room) (ends : Ends 6 rest) :
    place room ts = .ok (x, rest) := by
  obtain ⟨n, -, read⟩ := isRead_of_derives h room room hr (Nat.le_succ_of_le hr)
  rw [extend_stop (placeStep_none ends)] at read
  exact read

/-- An expression starts with a token that opens one. -/
theorem opens_of_isExpr {e : Expr} (h : IsExpr ts rest e) : ∃ t tail, ts = t :: tail ∧ opensExpr t.kind = true := by
  obtain ⟨t, tail, hts, opens⟩ := opens_of_derives h
  exact ⟨t, tail, hts, opens_expr opens⟩

theorem head_ne_of_isExpr {e : Expr} (h : IsExpr ts rest e) {k : TokenKind} (hk : opensExpr k = false) : head ts ≠ some k := by
  obtain ⟨t, tail, rfl, opens⟩ := opens_of_isExpr h
  intro he
  rw [Option.some.inj he, hk] at opens
  cases opens

end M32.Lang.Parse
