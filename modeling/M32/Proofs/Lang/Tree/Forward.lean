/-
  Readers go forward: what they leave of a token list is an end of it.

  `Parse.Forward` holds of every reader, from the single token to the definition.  So the name of a function comes from
  a token of its text (`Parse.mem_of_definitions`), and names of functions have the form of names (`isName_of_mem_functions`).
-/
import M32.Lang.Code.Program
import M32.Proofs.Lang.Token.Names

namespace M32.Lang

namespace Parse

variable {α β : Type}

/-- What a reader leaves is an end of what it was given. -/
def Forward (x : Parse α) : Prop := ∀ ts a rest, x ts = .ok (a, rest) → rest <:+ ts

theorem bind_eq_ok_iff (x : Parse α) (f : α → Parse β) (ts : List Token) (r : β × List Token) :
    (x >>= f) ts = .ok r ↔ ∃ a mid, x ts = .ok (a, mid) ∧ f a mid = .ok r := by
  show (Except.bind (x ts) fun (a, mid) => f a mid) = .ok r ↔ _
  cases x ts with
  | error e => simp [Except.bind]
  | ok p =>
    obtain ⟨a, mid⟩ := p
    exact ⟨fun h => ⟨a, mid, rfl, h⟩, by rintro ⟨_, _, ⟨⟩, h⟩; exact h⟩

namespace Forward

theorem pure (a : α) : Forward (Pure.pure a) := fun ts b rest h => by
  cases h
  exact List.suffix_rfl

theorem bind {x : Parse α} {f : α → Parse β} (hx : Forward x) (hf : ∀ a, Forward (f a)) : Forward (x >>= f) :=
  fun ts b rest h => by
    obtain ⟨a, mid, ha, hb⟩ := (bind_eq_ok_iff x f ts _).1 h
    exact (hf a mid b rest hb).trans (hx ts a mid ha)

theorem ite {c : Prop} [Decidable c] {x y : Parse α} (hx : Forward x) (hy : Forward y) : Forward (if c then x else y) := by
  split
  · exact hx
  · exact hy

/-! ## Tokens -/

theorem stuck : Forward (stuck : Parse α) := fun _ _ _ h => by cases h

theorem peek? (n : Nat) : Forward (peek? n) := fun ts b rest h => by
  cases h
  exact List.suffix_rfl

theorem skip : Forward skip := fun ts b rest h => by
  cases h
  exact List.tail_suffix _

theorem accept? (isKind : TokenKind → Bool) : Forward (accept? isKind) := fun ts b rest h => by
  cases ts with
  | nil =>
    cases h
    exact List.suffix_rfl
  | cons t ts =>
    rw [Parse.accept?] at h
    split at h
    · cases h
      exact List.suffix_cons _ _
    · cases h
      exact List.suffix_rfl

theorem require (isKind : TokenKind → Bool) : Forward (require isKind) := fun ts b rest h => by
  cases ts with
  | nil => cases h
  | cons t ts =>
    rw [Parse.require] at h
    split at h
    · cases h
      exact List.suffix_cons _ _
    · cases h

theorem sees (s : Symbol) : Forward (sees s) := (peek? 0).bind fun _ => pure _

theorem takes (s : Symbol) : Forward (takes s) := (accept? _).bind fun _ => pure _

theorem takesWord (k : Keyword) : Forward (takesWord k) := (accept? _).bind fun _ => pure _

theorem symbol (s : Symbol) : Forward (symbol s) := (require _).bind fun _ => pure _

theorem word (k : Keyword) : Forward (word k) := (require _).bind fun _ => pure _

theorem ident : Forward ident := fun ts b rest h => by
  unfold Parse.ident at h
  split at h
  · cases h
    exact List.suffix_cons _ _
  · cases h

theorem number : Forward number := fun ts b rest h => by
  unfold Parse.number at h
  split at h
  · cases h
    exact List.suffix_cons _ _
  · cases h

/-! ## Repetition -/

theorem many {step : Parse (Option α)} (h : Forward step) (room : Nat) : Forward (many step room) := by
  induction room with
  | zero => exact pure _
  | succ room ih =>
    refine h.bind fun o => ?_
    split
    · exact pure _
    · exact ih.bind fun _ => pure _

theorem extend {step : α → Parse (Option α)} (h : ∀ a, Forward (step a)) (room : Nat) (a : α) : Forward (extend step room a) := by
  induction room generalizing a with
  | zero => exact pure _
  | succ room ih =>
    refine (h a).bind fun o => ?_
    split
    · exact pure _
    · exact ih _

theorem upTo {elem : Parse α} (h : Forward elem) (room : Nat) (close : Symbol) : Forward (upTo room close elem) :=
  many ((sees close).bind fun _ => ite (pure _) (h.bind fun _ => pure _)) room

theorem commaList {elem : Parse α} (h : Forward elem) (room : Nat) (close : Symbol) : Forward (commaList room close elem) :=
  (sees close).bind fun _ => ite (pure _) (h.bind fun _ =>
    (many ((takes .comma).bind fun _ => ite (h.bind fun _ => pure _) (pure _)) room).bind fun _ => pure _)

/-! ## Types -/

theorem baseTy : Forward baseTy := (peek? 0).bind fun k => by
  split
  · exact skip.bind fun _ => ident.bind fun _ => pure _
  · split
    · exact skip.bind fun _ => pure _
    · exact stuck
  · exact stuck

theorem tyStep (ty : Ty) : Forward (tyStep ty) :=
  (takes .star).bind fun _ => ite (pure _) ((takes .lbracket).bind fun _ =>
    ite (number.bind fun _ => (symbol .rbracket).bind fun _ => pure _) (pure _))

theorem ty (room : Nat) : Forward (ty room) := baseTy.bind fun _ => extend tyStep room _

theorem decl (room : Nat) : Forward (decl room) := (ty room).bind fun _ => ident.bind fun _ => pure _

theorem closedDecl (room : Nat) : Forward (closedDecl room) := (decl room).bind fun _ => (symbol .semicolon).bind fun _ => pure _

/-! ## Expressions -/

theorem chain {operand : Parse Expr} (h : Forward operand) (room : Nat) (t : Tier) : Forward (t.chain room operand) := by
  refine h.bind fun _ => extend (fun left => (peek? 0).bind fun o => ?_) _ _
  split
  · exact skip.bind fun _ => h.bind fun _ => pure _
  · exact pure _

theorem chains {operand : Parse Expr} (h : Forward operand) (room : Nat) (ts : List Tier) : Forward (chains room ts operand) := by
  induction ts with
  | nil => exact h
  | cons t ts ih => exact chain ih room t

theorem placeOf {expr : Parse Expr} (h : Forward expr) (room : Nat) : Forward (placeOf room expr) :=
  ident.bind fun _ => extend (fun _ =>
    (takes .lbracket).bind fun _ => ite (h.bind fun _ => (symbol .rbracket).bind fun _ => pure _)
      ((takes .period).bind fun _ => ite (ident.bind fun _ => pure _)
        ((takes .deref).bind fun _ => ite (pure _) (pure _)))) room _

theorem operand (room depth : Nat) : Forward (operand room depth) := by
  induction depth with
  | zero => exact stuck
  | succ depth ih =>
    refine (peek? 0).bind fun k => ?_
    split
    · exact skip.bind fun _ => ih.bind fun _ => pure _
    · exact skip.bind fun _ => ih.bind fun _ => pure _
    · exact skip.bind fun _ => (chains ih room tiers).bind fun _ => (symbol .rparen).bind fun _ => pure _
    · exact skip.bind fun _ => pure _
    · exact skip.bind fun _ => pure _
    · exact skip.bind fun _ => pure _
    · exact skip.bind fun _ => pure _
    · exact (placeOf (chains ih room tiers) room).bind fun _ => pure _
    · exact stuck

theorem expr (room : Nat) : Forward (expr room) := chains (operand room room) room tiers

theorem place (room : Nat) : Forward (place room) := placeOf (expr room) room

/-! ## Statements -/

theorem call (room : Nat) : Forward (call room) :=
  ident.bind fun _ => (symbol .lparen).bind fun _ => (commaList (expr room) room .rparen).bind fun _ =>
    (symbol .rparen).bind fun _ => pure _

theorem gpr : Forward gpr :=
  (word .gpr).bind fun _ => (symbol .lparen).bind fun _ => number.bind fun _ => (symbol .rparen).bind fun _ => pure _

theorem spared (room : Nat) : Forward (spared room) :=
  (takesWord .except).bind fun _ => ite ((symbol .lparen).bind fun _ => (commaList number room .rparen).bind fun _ =>
    (symbol .rparen).bind fun _ => pure _) (pure _)

theorem seesCall : Forward seesCall := (peek? 0).bind fun _ => (peek? 1).bind fun _ => by
  split <;> exact pure _

theorem assigned (room : Nat) (target : Place) : Forward (assigned room target) :=
  (peek? 0).bind fun _ => ite (gpr.bind fun _ => (spared room).bind fun _ => pure _)
    ((takesWord .new).bind fun _ => ite ((ty room).bind fun _ => pure _)
      (seesCall.bind fun _ => ite ((call room).bind fun _ => pure _) ((expr room).bind fun _ => pure _)))

theorem blockOf {stmt : Parse Stmt} (h : Forward stmt) (room : Nat) : Forward (blockOf room stmt) :=
  (symbol .lcurly).bind fun _ => (upTo h room .rcurly).bind fun _ => (symbol .rcurly).bind fun _ => pure _

theorem openStmt {stmt : Parse Stmt} (h : Forward stmt) (room : Nat) : Forward (openStmt room stmt) := by
  have block := blockOf h room
  refine (peek? 0).bind fun k => ?_
  split
  · exact skip.bind fun _ => (expr room).bind fun _ => block.bind fun _ => pure _
  · exact skip.bind fun _ => (expr room).bind fun _ => block.bind fun _ =>
      (takesWord .else).bind fun _ => ite (block.bind fun _ => pure _) (pure _)
  · exact skip.bind fun _ => (sees .semicolon).bind fun _ => (sees .rcurly).bind fun _ =>
      ite (pure _) ((expr room).bind fun _ => pure _)
  · exact gpr.bind fun _ => (symbol .assign).bind fun _ => (place room).bind fun _ => (spared room).bind fun _ => pure _
  · exact seesCall.bind fun _ => ite ((call room).bind fun _ => pure _)
      ((place room).bind fun _ => (symbol .assign).bind fun _ => assigned room _)
  · exact stuck

theorem stmt (room depth : Nat) : Forward (stmt room depth) := by
  induction depth with
  | zero => exact stuck
  | succ depth ih => exact (openStmt ih room).bind fun _ => (takes .semicolon).bind fun _ => pure _

/-! ## Definitions -/

theorem structDef (room : Nat) : Forward (structDef room) :=
  (word .struct).bind fun _ => ident.bind fun _ => (symbol .lcurly).bind fun _ =>
    (upTo (closedDecl room) room .rcurly).bind fun _ => (symbol .rcurly).bind fun _ => (takes .semicolon).bind fun _ => pure _

theorem functionDef (room : Nat) (result : Option Ty) (name : String) : Forward (functionDef room result name) :=
  (symbol .lparen).bind fun _ => (commaList (decl room) room .rparen).bind fun _ => (symbol .rparen).bind fun _ =>
    (symbol .lcurly).bind fun _ =>
      (many (((peek? 0).bind fun _ => pure _).bind fun _ => ite ((closedDecl room).bind fun _ => pure _) (pure _)) room).bind
        fun _ => (upTo (stmt room room) room .rcurly).bind fun _ => (symbol .rcurly).bind fun _ => pure _

theorem definition (room : Nat) : Forward (definition room) :=
  (peek? 0).bind fun _ => (peek? 2).bind fun _ => ite (structDef room)
    ((takesWord .void).bind fun _ => ite (ident.bind fun _ => functionDef room none _)
      ((ty room).bind fun _ => ident.bind fun _ => (sees .lparen).bind fun _ =>
        ite (functionDef room (some _) _) ((symbol .semicolon).bind fun _ => pure _)))

end Forward

/-! ## Names of functions -/

theorem mem_of_ident {ts rest : List Token} {name : String} (h : ident ts = .ok (name, rest)) :
    ∃ t ∈ ts, t.kind = .ident name := by
  unfold ident at h
  split at h
  · cases h
    exact ⟨_, List.mem_cons_self, rfl⟩
  · cases h

/-- A reader whose value is always one that `Q` holds of. -/
def Gives (Q : α → Prop) (x : Parse α) : Prop := ∀ ts a rest, x ts = .ok (a, rest) → Q a

theorem Gives.pure {Q : α → Prop} {a : α} (h : Q a) : Gives Q (Pure.pure a) := fun ts b rest hb => by
  cases hb
  exact h

theorem Gives.bind {Q : β → Prop} {x : Parse α} {f : α → Parse β} (h : ∀ a, Gives Q (f a)) : Gives Q (x >>= f) :=
  fun ts b rest hb => by
    obtain ⟨a, mid, _, hf⟩ := (bind_eq_ok_iff x f ts _).1 hb
    exact h a mid b rest hf

/-- Whether a definition is no function, or one of a name. -/
def IsNamed (name : String) (d : Def) : Prop := ∀ f, d = .function f → f.name = name

theorem functionDef_gives (room : Nat) (result : Option Ty) (name : String) :
    Gives (IsNamed name) (functionDef room result name) :=
  .bind fun _ => .bind fun _ => .bind fun _ => .bind fun _ => .bind fun _ => .bind fun _ => .bind fun _ =>
    .pure fun f hf => by cases hf; rfl

theorem structDef_gives (room : Nat) (name : String) : Gives (IsNamed name) (structDef room) :=
  .bind fun _ => .bind fun _ => .bind fun _ => .bind fun _ => .bind fun _ => .bind fun _ =>
    .pure fun f hf => by cases hf

/-- The name of a function is that of a token. -/
theorem mem_of_definition {room : Nat} {ts rest : List Token} {f : Function}
    (h : definition room ts = .ok (.function f, rest)) : ∃ t ∈ ts, t.kind = .ident f.name := by
  -- the name is read right after the result, so its token is one of those that are left there
  have named {ts mid : List Token} {name : String} {result : Option Ty} (hi : ident ts = .ok (name, mid))
      (hd : functionDef room result name mid = .ok (.function f, rest)) : ∃ t ∈ ts, t.kind = .ident f.name := by
    rw [functionDef_gives room result name mid _ rest hd f rfl]
    exact mem_of_ident hi
  have within {ts mid : List Token} (hs : mid <:+ ts) (hm : ∃ t ∈ mid, t.kind = .ident f.name) :
      ∃ t ∈ ts, t.kind = .ident f.name := by
    obtain ⟨t, ht, hk⟩ := hm
    exact ⟨t, hs.mem ht, hk⟩
  unfold definition at h
  obtain ⟨k, m1, h1, h⟩ := (bind_eq_ok_iff _ _ _ _).1 h
  obtain ⟨k', m2, h2, h⟩ := (bind_eq_ok_iff _ _ _ _).1 h
  have s2 := (Forward.peek? 2 _ _ _ h2).trans (Forward.peek? 0 _ _ _ h1)
  split at h
  · -- a struct is no function: it would have every name
    exact absurd (structDef_gives room (f.name ++ "x") m2 _ rest h f rfl) fun he => by
      have := congrArg String.length he
      simp at this
  · obtain ⟨isVoid, m3, h3, h⟩ := (bind_eq_ok_iff _ _ _ _).1 h
    have s3 := (Forward.takesWord _ _ _ _ h3).trans s2
    split at h
    · obtain ⟨name, m4, h4, h⟩ := (bind_eq_ok_iff _ _ _ _).1 h
      exact within s3 (named h4 h)
    · obtain ⟨result, m4, h4, h⟩ := (bind_eq_ok_iff _ _ _ _).1 h
      obtain ⟨name, m5, h5, h⟩ := (bind_eq_ok_iff _ _ _ _).1 h
      obtain ⟨opens, m6, h6, h⟩ := (bind_eq_ok_iff _ _ _ _).1 h
      have s4 := (Forward.ty room _ _ _ h4).trans s3
      split at h
      · rw [show m6 = m5 by cases h6; rfl] at h
        exact within s4 (named h5 h)
      · obtain ⟨_, m7, _, h⟩ := (bind_eq_ok_iff _ _ _ _).1 h
        cases h

theorem mem_of_definitions {room count : Nat} {ts : List Token} {f : Function}
    (h : .function f ∈ (definitions room count ts).1) : ∃ t ∈ ts, t.kind = .ident f.name := by
  induction count generalizing ts with
  | zero => simp [definitions] at h
  | succ count ih =>
    cases ts with
    | nil => simp [definitions] at h
    | cons t ts =>
      unfold definitions at h
      simp only at h
      split at h
      · simp at h
      · next d rest hd =>
        rcases List.mem_cons.1 h with rfl | h
        · exact mem_of_definition hd
        · obtain ⟨u, hu, hk⟩ := ih h
          exact ⟨u, (Forward.definition room _ _ _ hd).mem hu, hk⟩

end Parse

/-- The functions of a text that can be read have the names of its tokens, so these have the form of names. -/
theorem isName_of_mem_functions {file : String} {cs : List Char} {p : Program} (h : readProgram file cs = .ok p)
    {f : Function} (hf : f ∈ p.functions) : IsName f.name := by
  have hdefs : p = (Program.ofTokens (codeTokens file cs)).1 := by
    unfold readProgram Program.ofText at h
    split at h
    · next hp => cases h; rw [hp]
    · cases h
  obtain ⟨d, hd, hdf⟩ := List.mem_filterMap.1 hf
  have mem : .function f ∈ p.defs := by
    cases d with
    | function g => cases hdf; exact hd
    | struct => cases hdf
    | global => cases hdf
  rw [hdefs] at mem
  obtain ⟨t, ht, hk⟩ := Parse.mem_of_definitions mem
  exact isName_of_mem_tokens (List.mem_filter.1 ht).1 hk

end M32.Lang
