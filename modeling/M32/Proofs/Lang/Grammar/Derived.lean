/-
  What is read is derived by the grammar.

  `Yields x ts P` says that whatever `x` reads at the front of `ts`, `P` holds of it and of the tokens that it leaves.  There
  is one lemma for each way in which readers are put together, so a proof goes through a reader step by step.
  `Follows R x` says that all that `x` reads are phrases of the rule `R`.  It holds of every reader with its rule, whatever the
  bounds on its steps are: a reader that runs out of steps has read a phrase all the same.
  1. The repetitions come first (`many_follows`, `upTo_follows`, `commaList_follows`).
  2. Expressions go by induction on the depth of the reader, and inside from layer to layer (`chain_follows`).
  3. A `return` without a value is read only before a semicolon or a closing brace; so statements and definitions follow the
     grammar for every condition that these meet.
-/
import M32.Proofs.Lang.Grammar
import M32.Proofs.Lang.Tree.Forward

namespace M32.Lang.Parse

open Grammar

variable {α β : Type} {ts : List Token} {R : Rule α}

/-- Whether something holds of all that a reader reads at the front of some tokens. -/
def Yields (x : Parse α) (ts : List Token) (P : α → List Token → Prop) : Prop := ∀ a rest, x ts = .ok (a, rest) → P a rest

/-- Whether all that a reader reads are phrases of a rule. -/
def Follows (R : Rule α) (x : Parse α) : Prop := ∀ ts, Yields x ts fun a rest => R ts rest a

theorem kind_eq {k : TokenKind} (h : ts[0]?.map Token.kind = some k) : ∃ p tail, ts = ⟨k, p⟩ :: tail := by
  cases ts with
  | nil => cases h
  | cons t tail =>
    cases h
    exact ⟨t.pos, tail, rfl⟩

namespace Yields

variable {P : α → List Token → Prop} {x : Parse α}

theorem bind {f : α → Parse β} {P : β → List Token → Prop} (h : Yields x ts fun a mid => Yields (f a) mid P) :
    Yields (x >>= f) ts P := fun b rest hb => by
  obtain ⟨a, mid, ha, hb⟩ := (bind_eq_ok_iff x f ts _).1 hb
  exact h a mid ha b rest hb

theorem pure {a : α} (h : P a ts) : Yields (Pure.pure a) ts P := fun b rest ha => by
  cases ha
  exact h

theorem follows (hx : Follows R x) (h : ∀ a rest, R ts rest a → P a rest) : Yields x ts P :=
  fun a rest ha => h a rest (hx ts a rest ha)

theorem stuck : Yields stuck ts P := nofun

/-! ### Tokens -/

theorem peek {n : Nat} {P : Option TokenKind → List Token → Prop} (h : ∀ k, ts[n]?.map Token.kind = k → P k ts) :
    Yields (peek? n) ts P := fun k rest hk => by
  cases hk
  exact h _ rfl

theorem skip {P : Unit → List Token → Prop} (h : P () ts.tail) : Yields skip ts P := fun u rest hu => by
  cases hu
  exact h

theorem accept {k : TokenKind} {P : Option Token → List Token → Prop} (h : ∀ p rest, ts = ⟨k, p⟩ :: rest → P (some ⟨k, p⟩) rest)
    (h' : P none ts) : Yields (accept? fun k' => k' = k) ts P := fun o rest ho => by
  cases ts with
  | nil =>
    cases ho
    exact h'
  | cons t ts =>
    rw [accept?] at ho
    split at ho
    · next hk =>
      cases ho
      rw [← of_decide_eq_true hk] at h
      exact h t.pos _ rfl
    · cases ho
      exact h'

theorem takes {s : Symbol} {P : Bool → List Token → Prop} (h : ∀ p rest, ts = ⟨.symbol s, p⟩ :: rest → P true rest)
    (h' : P false ts) : Yields (takes s) ts P :=
  bind (accept (fun p rest hts => pure (h p rest hts)) (pure h'))

theorem takesWord {k : Keyword} {P : Bool → List Token → Prop} (h : ∀ p rest, ts = ⟨.keyword k, p⟩ :: rest → P true rest)
    (h' : P false ts) : Yields (takesWord k) ts P :=
  bind (accept (fun p rest hts => pure (h p rest hts)) (pure h'))

theorem require {k : TokenKind} {P : Token → List Token → Prop} (h : ∀ p rest, ts = ⟨k, p⟩ :: rest → P ⟨k, p⟩ rest) :
    Yields (require fun k' => k' = k) ts P := fun t rest ht => by
  cases ts with
  | nil => cases ht
  | cons t ts =>
    rw [Parse.require] at ht
    split at ht
    · next hk =>
      cases ht
      rw [← of_decide_eq_true hk] at h
      exact h _ _ rfl
    · cases ht

theorem symbol {s : Symbol} {P : Unit → List Token → Prop} (h : ∀ p rest, ts = ⟨.symbol s, p⟩ :: rest → P () rest) :
    Yields (symbol s) ts P := bind (require fun p rest hts => pure (h p rest hts))

theorem word {k : Keyword} {P : Unit → List Token → Prop} (h : ∀ p rest, ts = ⟨.keyword k, p⟩ :: rest → P () rest) :
    Yields (word k) ts P := bind (require fun p rest hts => pure (h p rest hts))

theorem ident {P : String → List Token → Prop} (h : ∀ name p rest, ts = ⟨.ident name, p⟩ :: rest → P name rest) :
    Yields ident ts P := fun name rest hn => by
  unfold Parse.ident at hn
  split at hn
  · cases hn
    exact h _ _ _ rfl
  · cases hn

theorem sees {s : Symbol} {P : Bool → List Token → Prop} (h : ∀ p tail, ts = ⟨.symbol s, p⟩ :: tail → P true ts)
    (h' : P false ts) : Yields (sees s) ts P := by
  refine bind (peek fun k hk => pure ?_)
  by_cases here : k = some (.symbol s)
  · rw [decide_eq_true here]
    obtain ⟨p, tail, hts⟩ := kind_eq (hk.trans here)
    exact h p tail hts
  · rw [decide_eq_false here]
    exact h'

end Yields

theorem number_follows : Follows IsNumber number := fun ts n rest h => by
  unfold number at h
  split at h
  · cases h
    exact .mk
  · cases h

/-! ## Repetition -/

/-- A step that reads phrases of a rule, or nothing. -/
def Steps (R : Rule α) (step : Parse (Option α)) : Prop :=
  ∀ ts, Yields step ts fun o rest => match o with
    | some a => R ts rest a
    | none => rest = ts

theorem many_follows {step : Parse (Option α)} (h : Steps R step) (room : Nat) : Follows (Many R) (many step room) := by
  induction room with
  | zero => exact fun ts => .pure .nil
  | succ room ih =>
    intro ts
    refine .bind fun o mid ho => ?_
    have read := h ts o mid ho
    cases o with
    | none =>
      cases read
      exact .pure .nil
    | some a => exact .bind (.follows ih fun as rest has => .pure (.cons read has))

/-- What a repeated step keeps is kept to the end. -/
theorem extend_keeps {step : α → Parse (Option α)} {I : α → List Token → Prop}
    (h : ∀ a mid, I a mid → Yields (step a) mid fun o rest => match o with
      | some b => I b rest
      | none => rest = mid) (room : Nat) {a : α} (ha : I a ts) : Yields (extend step room a) ts I := by
  -- on the steps that are left, with `I` as the invariant
  induction room generalizing a ts with
  | zero => exact .pure ha
  | succ room ih =>
    refine .bind fun o mid ho => ?_
    have read := h a ts ha o mid ho
    cases o with
    | none =>
      cases read
      exact .pure ha
    | some b => exact ih read

theorem upTo_follows {elem : Parse α} (h : Follows R elem) (room : Nat) (close : Symbol) :
    Follows (Many R) (upTo room close elem) := by
  refine many_follows (fun ts => .bind (.sees (fun p tail hts => ?_) ?_)) room
  · exact .pure rfl
  · exact .bind (.follows h fun a rest ha => .pure ha)

theorem commaList_follows {elem : Parse α} (h : Follows R elem) (room : Nat) (close : Symbol) :
    Follows (CommaList R) (commaList room close elem) := by
  have more : Steps (AfterComma R) (do if ← takes .comma then return some (← elem) else return none) := by
    refine fun ts => .bind (.takes ?_ ?_)
    · rintro p rest rfl
      exact .bind (.follows h fun a rest ha => .pure (.mk ha))
    · exact .pure rfl
  refine fun ts => .bind (.sees (fun p tail hts => ?_) ?_)
  · exact .pure .nil
  · exact .bind (.follows h fun a mid ha => .bind (.follows (many_follows more room) fun as rest has => .pure (.cons ha has)))

/-! ## Types -/

theorem baseTy_follows : Follows IsTy baseTy := by
  refine fun ts => .bind (.peek fun k hk => ?_)
  split
  · obtain ⟨p, tail, rfl⟩ := kind_eq hk
    refine .bind (.skip (.bind (.ident ?_)))
    rintro name q rest rfl
    exact .pure .struct
  · next k _ =>
    obtain ⟨p, tail, rfl⟩ := kind_eq hk
    split
    · next s hs =>
      refine .bind (.skip (.pure ?_))
      unfold scalar? at hs
      split at hs <;> cases hs
      · exact .int
      · exact .uint
      · exact .bool
      · exact .char
    · exact .stuck
  · exact .stuck

theorem ty_follows (room : Nat) : Follows IsTy (ty room) := by
  refine fun ts => .bind (.follows baseTy_follows fun base mid hbase => ?_)
  refine extend_keeps (I := fun t mid => IsTy ts mid t) (fun t mid ht => ?_) room hbase
  refine .bind (.takes ?_ (.bind (.takes ?_ ?_)))
  · rintro p rest rfl
    exact .pure (.pointer ht)
  · rintro p rest rfl
    refine .bind (.follows number_follows fun n mid hn => .bind (.symbol ?_))
    rintro q rest rfl
    exact .pure (.array ht hn)
  · exact .pure rfl

theorem decl_follows (room : Nat) : Follows IsParam (decl room) := by
  refine fun ts => .bind (.follows (ty_follows room) fun t mid ht => .bind (.ident ?_))
  rintro name p rest rfl
  exact .pure (.mk ht)

theorem closedDecl_follows (room : Nat) : Follows IsDecl (closedDecl room) := by
  refine fun ts => .bind (.follows (decl_follows room) fun d mid hd => .bind (.symbol ?_))
  rintro p rest rfl
  exact .pure (.mk hd)

/-! ## Expressions -/

end Parse

namespace Grammar.Layer

open Parse

/-- The tier of the operators of a layer. -/
def tier : Layer → Tier
  | or => ⟨[.or], true⟩
  | and => ⟨[.and], true⟩
  | eq => ⟨[.eq, .ne], true⟩
  | relat => ⟨[.lt, .gt, .le, .ge], false⟩
  | add => ⟨[.add, .sub], true⟩
  | mul => ⟨[.mul, .div], true⟩

/-- The tiers inside a layer. -/
def inside : Layer → List Tier
  | or => tiers.drop 1
  | and => tiers.drop 2
  | eq => tiers.drop 3
  | relat => tiers.drop 4
  | add => tiers.drop 5
  | mul => []

/-- The reader of a layer, from the reader of operands. -/
def reader (room : Nat) (operand : Parse Expr) (l : Layer) : Parse Expr := chains room (l.tier :: l.inside) operand

/-- The reader of what stands inside a layer. -/
def innerReader (room : Nat) (operand : Parse Expr) (l : Layer) : Parse Expr := chains room l.inside operand

theorem reader_eq (room : Nat) (operand : Parse Expr) (l : Layer) :
    l.reader room operand = l.tier.chain room (l.innerReader room operand) := rfl

theorem reader_or (room : Nat) (operand : Parse Expr) : Layer.or.reader room operand = chains room tiers operand := rfl

theorem mem_ops_iff {l : Layer} {s : Symbol} {op : BinaryOp} : (s, op) ∈ l.ops ↔ op ∈ l.tier.ops ∧ s = op.symbol := by
  cases l <;> cases op <;> simp [ops, tier, BinaryOp.symbol]

theorem symbol_injective {op other : BinaryOp} (h : op.symbol = other.symbol) : op = other := by
  cases op <;> cases other <;> first | rfl | cases h

theorem op?_eq_some_iff {l : Layer} {k : TokenKind} {op : BinaryOp} :
    l.tier.op? k = some op ↔ ∃ s, k = .symbol s ∧ (s, op) ∈ l.ops := by
  simp only [mem_ops_iff]
  constructor
  · intro h
    have spelled := List.find?_some h
    exact ⟨op.symbol, of_decide_eq_true spelled, List.mem_of_find?_eq_some h, rfl⟩
  · rintro ⟨s, rfl, mem, rfl⟩
    cases h : l.tier.op? (.symbol op.symbol) with
    | none => exact absurd rfl (of_decide_eq_false (Bool.eq_false_iff.2 (List.find?_eq_none.1 h op mem)))
    | some other =>
      -- no two operators have one symbol
      have same := List.find?_some h
      rw [symbol_injective (TokenKind.symbol.inj (of_decide_eq_true same))]

theorem repeats_tier (l : Layer) : l.tier.repeats = decide (l ≠ .relat) := by cases l <;> rfl

end Grammar.Layer

namespace Parse

open Grammar

/-- The rule of a phrase of expressions. -/
abbrev Exprs (phrase : Expr → Phrase) : Rule Expr := fun ts rest e => Derives (phrase e) ts rest

/-- An operator and its right operand, or nothing. -/
theorem tierStep_yields {l : Layer} {inner : Parse Expr} (h : Follows (Exprs l.inner) inner) (left : Expr) (ts : List Token) :
    Yields (l.tier.step inner left) ts fun o rest => match o with
      | some e => ∃ s op p right tail, ts = ⟨.symbol s, p⟩ :: tail ∧ (s, op) ∈ l.ops ∧ Derives (l.inner right) tail rest ∧
          e = .binary op left right
      | none => rest = ts := by
  refine .bind (.peek fun k hk => ?_)
  split
  · next op hop =>
    obtain ⟨k, rfl, hop⟩ := Option.bind_eq_some_iff.1 hop
    obtain ⟨s, rfl, mem⟩ := Layer.op?_eq_some_iff.1 hop
    obtain ⟨p, tail, rfl⟩ := kind_eq hk
    refine .bind (.skip (.bind (.follows h fun right rest hr => .pure ?_)))
    exact ⟨s, op, p, right, tail, rfl, mem, hr, rfl⟩
  · exact .pure rfl

/-- Operands with operators of a layer between them. -/
theorem chain_follows {l : Layer} {inner : Parse Expr} (h : Follows (Exprs l.inner) inner) (room : Nat) :
    Follows (Exprs (.layer l)) (l.tier.chain room inner) := by
  refine fun ts => .bind (.follows h fun left mid hleft => ?_)
  rw [Layer.repeats_tier]
  by_cases relat : l = .relat
  · -- comparisons take one step
    subst relat
    refine .bind fun o rest ho => ?_
    have read := tierStep_yields h left mid o rest ho
    cases o with
    | none =>
      cases read
      exact .pure (.one hleft)
    | some e =>
      obtain ⟨s, op, p, right, tail, rfl, mem, hr, rfl⟩ := read
      exact .pure (.two mem hleft hr)
  · rw [decide_eq_true relat]
    refine extend_keeps (I := fun e mid => Derives (.layer l e) ts mid) (fun left mid hleft o rest ho => ?_) room (.one hleft)
    have read := tierStep_yields h left mid o rest ho
    cases o with
    | none => exact read
    | some e =>
      obtain ⟨s, op, p, right, tail, rfl, mem, hr, rfl⟩ := read
      exact .more relat mem hleft hr

theorem reader_follows {operand : Parse Expr} (h : Follows (Exprs .unary) operand) (room : Nat) (l : Layer) :
    Follows (Exprs (.layer l)) (l.reader room operand) := by
  have mul := chain_follows (l := .mul) h room
  have add := chain_follows (l := .add) mul room
  have relat := chain_follows (l := .relat) add room
  have eq := chain_follows (l := .eq) relat room
  have and := chain_follows (l := .and) eq room
  cases l with
  | or => exact chain_follows (l := .or) and room
  | and => exact and
  | eq => exact eq
  | relat => exact relat
  | add => exact add
  | mul => exact mul

theorem placeOf_follows {expr : Parse Expr} (h : Follows IsExpr expr) (room : Nat) : Follows IsPlace (placeOf room expr) := by
  refine fun ts => .bind (.ident ?_)
  rintro name p mid rfl
  refine extend_keeps (I := fun x mid => IsPlace _ mid x) (fun x mid hx => ?_) room .var
  refine .bind (.takes ?_ (.bind (.takes ?_ (.bind (.takes ?_ ?_)))))
  · rintro p rest rfl
    refine .bind (.follows h fun i mid hi => .bind (.symbol ?_))
    rintro q rest rfl
    exact .pure (.index hx hi)
  · rintro p rest rfl
    refine .bind (.ident ?_)
    rintro name q rest rfl
    exact .pure (.field hx)
  · rintro p rest rfl
    exact .pure (.deref hx)
  · exact .pure rfl

theorem operand_follows (room depth : Nat) : Follows (Exprs .unary) (operand room depth) := by
  induction depth with
  | zero => exact fun ts => .stuck
  | succ depth ih =>
    have expr : Follows IsExpr (chains room tiers (operand room depth)) := reader_follows ih room .or
    refine fun ts => .bind (.peek fun k hk => ?_)
    split
    · obtain ⟨p, tail, rfl⟩ := kind_eq hk
      exact .bind (.skip (.bind (.follows ih fun e rest he => .pure (.not he))))
    · obtain ⟨p, tail, rfl⟩ := kind_eq hk
      exact .bind (.skip (.bind (.follows ih fun e rest he => .pure (.neg he))))
    · obtain ⟨p, tail, rfl⟩ := kind_eq hk
      refine .bind (.skip (.bind (.follows expr fun e mid he => .bind (.symbol ?_))))
      rintro q rest rfl
      exact .pure (.primary (.parens he))
    · obtain ⟨p, tail, rfl⟩ := kind_eq hk
      exact .bind (.skip (.pure (.primary .number)))
    · obtain ⟨p, tail, rfl⟩ := kind_eq hk
      exact .bind (.skip (.pure (.primary .true)))
    · obtain ⟨p, tail, rfl⟩ := kind_eq hk
      exact .bind (.skip (.pure (.primary .false)))
    · obtain ⟨p, tail, rfl⟩ := kind_eq hk
      exact .bind (.skip (.pure (.primary .char)))
    · exact .bind (.follows (placeOf_follows expr room) fun x rest hx => .pure (.primary (.place hx)))
    · exact .stuck

theorem expr_follows (room : Nat) : Follows IsExpr (expr room) := reader_follows (operand_follows room room) room .or

theorem place_follows (room : Nat) : Follows IsPlace (place room) := placeOf_follows (expr_follows room) room

/-! ## Statements -/

theorem call_follows (room : Nat) : Follows IsCall (call room) := by
  refine fun ts => .bind (.ident ?_)
  rintro name p mid rfl
  refine .bind (.symbol ?_)
  rintro q mid rfl
  refine .bind (.follows (commaList_follows (expr_follows room) room .rparen) fun args mid hargs => .bind (.symbol ?_))
  rintro r rest rfl
  exact .pure (.mk hargs)

theorem gpr_follows : Follows IsGpr gpr := by
  refine fun ts => .bind (.word ?_)
  rintro p mid rfl
  refine .bind (.symbol ?_)
  rintro q mid rfl
  refine .bind (.follows number_follows fun n mid hn => .bind (.symbol ?_))
  rintro r rest rfl
  exact .pure (.mk hn)

theorem spared_follows (room : Nat) : Follows IsSpared (spared room) := by
  refine fun ts => .bind (.takesWord ?_ ?_)
  · rintro p mid rfl
    refine .bind (.symbol ?_)
    rintro q mid rfl
    refine .bind (.follows (commaList_follows number_follows room .rparen) fun ns mid hns => .bind (.symbol ?_))
    rintro r rest rfl
    exact .pure (.except hns)
  · exact .pure .nothing

theorem Yields.seesCall {P : Bool → List Token → Prop} (h : ∀ b, P b ts) : Yields seesCall ts P := by
  refine .bind (.peek fun k _ => .bind (.peek fun k' _ => ?_))
  split
  · exact .pure (h _)
  · exact .pure (h _)

theorem assigned_follows (room : Nat) (target : Place) : Follows (IsAssigned target) (assigned room target) := by
  refine fun ts => .bind (.peek fun k _ => ?_)
  split
  · exact .bind (.follows gpr_follows fun n mid hn => .bind (.follows (spared_follows room) fun ns rest hns => .pure (.gpr hn hns)))
  · refine .bind (.takesWord ?_ (.bind (.seesCall fun b => ?_)))
    · rintro p mid rfl
      exact .bind (.follows (ty_follows room) fun t rest ht => .pure (.new ht))
    · split
      · exact .bind (.follows (call_follows room) fun c rest hc => .pure (.call hc))
      · exact .bind (.follows (expr_follows room) fun e rest he => .pure (.expr he))

section Stmts

variable {after : List Token → Prop}

/-- The rule of a phrase of statements. -/
abbrev Stmts (after : List Token → Prop) (clause : α → Clause) : Rule α := fun ts rest a => Runs after (clause a) ts rest

theorem runs_of_many {rest : List Token} {ss : List Stmt} (h : Many (Stmts after .stmt) ts rest ss) :
    Runs after (.stmts ss) ts rest := by
  induction h with
  | nil => exact .nil
  | cons hs _ ih => exact .cons hs ih

theorem upTo_stmts_follows {stmt : Parse Stmt} (h : Follows (Stmts after .stmt) stmt) (room : Nat) :
    Follows (Stmts after .stmts) (upTo room .rcurly stmt) :=
  fun _ => .follows (upTo_follows h room .rcurly) fun _ _ => runs_of_many

theorem blockOf_follows {stmt : Parse Stmt} (h : Follows (Stmts after .stmt) stmt) (room : Nat) :
    Follows (Stmts after .block) (blockOf room stmt) := by
  refine fun ts => .bind (.symbol ?_)
  rintro p mid rfl
  refine .bind (.follows (upTo_stmts_follows h room) fun ss mid hss => .bind (.symbol ?_))
  rintro q rest rfl
  exact .pure (.block hss)

theorem openStmt_follows (closed : ∀ ts, IsClosed ts → after ts) {stmt : Parse Stmt} (h : Follows (Stmts after .stmt) stmt)
    (room : Nat) : Follows (Stmts after .bare) (openStmt room stmt) := by
  have block := blockOf_follows h room
  have condition := expr_follows room
  refine fun ts => .bind (.peek fun k hk => ?_)
  split
  · obtain ⟨p, tail, rfl⟩ := kind_eq hk
    refine .bind (.skip (.bind (.follows condition fun e mid he => ?_)))
    exact .bind (.follows block fun ss rest hss => .pure (.while he hss))
  · obtain ⟨p, tail, rfl⟩ := kind_eq hk
    refine .bind (.skip (.bind (.follows condition fun e mid he => .bind (.follows block fun ss mid hss => ?_))))
    refine .bind (.takesWord ?_ ?_)
    · rintro q other rfl
      exact .bind (.follows block fun os rest hos => .pure (.ifElse he hss hos))
    · exact .pure (.ifThen he hss)
  · obtain ⟨p, tail, rfl⟩ := kind_eq hk
    refine .bind (.skip (.bind (.sees (fun q rest (hts : tail = _) => ?_) (.bind (.sees (fun q rest (hts : tail = _) => ?_) ?_)))))
    · -- the brace is looked for all the same, and whether it is there changes nothing
      refine .bind (.sees (fun _ _ _ => .pure (.leave ?_)) (.pure (.leave ?_)))
      all_goals
        apply closed
        show IsClosed tail
        rw [hts]
        exact .semicolon
    · refine .pure (.leave (closed _ ?_))
      show IsClosed tail
      rw [hts]
      exact .rcurly
    · exact .bind (.follows condition fun e rest he => .pure (.give he))
  · refine .bind (.follows gpr_follows fun n mid hn => .bind (.symbol ?_))
    rintro p mid rfl
    exact .bind (.follows (place_follows room) fun x mid hx =>
      .bind (.follows (spared_follows room) fun ns rest hns => .pure (.toGpr hn hx hns)))
  · refine .bind (.seesCall fun b => ?_)
    split
    · exact .bind (.follows (call_follows room) fun c rest hc => .pure (.call hc))
    · refine .bind (.follows (place_follows room) fun x mid hx => .bind (.symbol ?_))
      rintro p mid rfl
      exact .follows (assigned_follows room x) fun s rest hs => .assign hx hs
  · exact .stuck

theorem Yields.maySemicolon {P : Bool → List Token → Prop} (h : ∀ b rest, MaySemicolon ts rest → P b rest) :
    Yields (Parse.takes .semicolon) ts P := by
  refine .takes ?_ (h _ _ .without)
  rintro p rest rfl
  exact h _ _ .semicolon

theorem stmt_follows (closed : ∀ ts, IsClosed ts → after ts) (room depth : Nat) :
    Follows (Stmts after .stmt) (stmt room depth) := by
  induction depth with
  | zero => exact fun ts => .stuck
  | succ depth ih =>
    refine fun ts => .bind (.follows (openStmt_follows closed ih room) fun s mid hs => ?_)
    exact .bind (.maySemicolon fun b rest hm => .pure (.stmt hs hm))

/-! ## Definitions -/

theorem structDef_follows (room : Nat) : Follows (IsDef after) (structDef room) := by
  refine fun ts => .bind (.word ?_)
  rintro p mid rfl
  refine .bind (.ident ?_)
  rintro name q mid rfl
  refine .bind (.symbol ?_)
  rintro r mid rfl
  refine .bind (.follows (upTo_follows (closedDecl_follows room) room .rcurly) fun fields mid hfields => .bind (.symbol ?_))
  rintro s mid rfl
  exact .bind (.maySemicolon fun b rest hm => .pure (.struct hfields hm))

theorem functionDef_yields (closed : ∀ ts, IsClosed ts → after ts) (room : Nat) {result : Option Ty} {name : String} {p : Pos}
    {start mid : List Token} (h : IsResult start (⟨.ident name, p⟩ :: mid) result) :
    Yields (functionDef room result name) mid fun d rest => IsDef after start rest d := by
  refine .bind (.symbol ?_)
  rintro q ps rfl
  refine .bind (.follows (commaList_follows (decl_follows room) room .rparen) fun params mid hparams => .bind (.symbol ?_))
  rintro r mid rfl
  refine .bind (.symbol ?_)
  rintro s ls rfl
  have locals : Steps IsDecl (do if ← seesTy then return some (← closedDecl room) else return none) := by
    refine fun ts => .bind (.bind (.peek fun k _ => .pure ?_))
    split
    · exact .bind (.follows (closedDecl_follows room) fun d rest hd => .pure hd)
    · exact .pure rfl
  refine .bind (.follows (many_follows locals room) fun ds ss hds => ?_)
  refine .bind (.follows (upTo_stmts_follows (stmt_follows closed room room) room) fun body mid hbody => .bind (.symbol ?_))
  rintro u rest rfl
  exact .pure (.function h hparams hds hbody)

theorem definition_follows (closed : ∀ ts, IsClosed ts → after ts) (room : Nat) : Follows (IsDef after) (definition room) := by
  refine fun ts => .bind (.peek fun k _ => .bind (.peek fun k' _ => ?_))
  split
  · exact .follows (structDef_follows room) fun d rest hd => hd
  · refine .bind (.takesWord ?_ ?_)
    · rintro p mid rfl
      refine .bind (.ident ?_)
      rintro name q mid rfl
      exact functionDef_yields closed room .void
    · refine .bind (.follows (ty_follows room) fun t mid ht => .bind (.ident ?_))
      rintro name p mid rfl
      refine .bind (.sees (fun q tail hmid => ?_) (.bind (.symbol ?_)))
      · exact functionDef_yields closed room (.ty ht)
      · rintro q rest rfl
        exact .pure (.global (.mk (.mk ht)))

theorem definitions_follow (closed : ∀ ts, IsClosed ts → after ts) {room count : Nat} {ds : List Def} (enough : ts.length < count)
    (h : definitions room count ts = (ds, none)) : Many (IsDef after) ts [] ds := by
  induction count generalizing ts ds with
  | zero => exact absurd enough (Nat.not_lt_zero _)
  | succ count ih =>
    cases ts with
    | nil =>
      cases h
      exact .nil
    | cons t ts =>
      unfold definitions at h
      dsimp only at h
      split at h
      · cases h
      · next d rest hd =>
        have first := definition_follows closed room _ _ _ hd
        have shorter := first.spans.2
        cases hr : definitions room count rest with
        | mk ds' e =>
          rw [hr] at h
          cases h
          exact .cons first (ih (by omega) hr)

end Stmts

end Parse

/-- A program that is read without an error is derived by the grammar, for every condition that a semicolon and a closing brace
    meet. -/
theorem isProgram_of_ofTokens {after : List Token → Prop} (closed : ∀ ts, Grammar.IsClosed ts → after ts) {ts : List Token}
    {p : Program} (h : Program.ofTokens ts = (p, none)) : Grammar.IsProgram after ts p := by
  unfold Program.ofTokens at h
  cases hd : Parse.definitions (ts.length + 1) (ts.length + 1) ts with
  | mk ds e =>
    simp only [hd] at h
    cases h
    exact Parse.definitions_follow closed (Nat.lt_succ_self _) hd

end M32.Lang
