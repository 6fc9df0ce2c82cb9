/-
  Code that leaves the heap pointer alone.

  1. `Emit.Steady` holds of a piece of code that is steady, whatever registers are in use before it.  Pieces in a row are if each
     of them is, given what is known of the registers they hand on (`Emit.Steady.bind`): the heap pointer is never handed out.
  2. Every piece is, from the constant to the function, as long as no statement copies to the register of the heap pointer.
  3. `steady_programCode`: so all that follows the first lines of such a program is steady.
-/
import M32.Proofs.Lang.Code.Distances
import M32.Proofs.Lang.Code.Tiled

namespace M32.Lang

open Machine

/-! ## Pieces of code -/

/-- Whether a piece of code is steady, whatever registers are in use before it, and hands on what is good. -/
def Emit.Steady {α : Type} (map : MemoryMap) (good : α → Prop) (x : Emit α) : Prop :=
  ∀ p r, x p = .ok r → Lang.Steady map r.code ∧ good r.value

namespace Emit.Steady

variable {α β : Type} {map : MemoryMap} {first : β → Prop} {good : α → Prop}

theorem pure {a : α} (h : good a) : Emit.Steady map good (Pure.pure a) := by
  intro p r hr
  cases (pure_eq_ok_iff a r).1 hr
  exact ⟨.nil, h⟩

theorem fail {fault : Fault} : Emit.Steady map good (Emit.fail fault) := fun _ r hr => absurd hr (fail_ne_ok fault r)

theorem bind {x : Emit β} {f : β → Emit α} (hx : Emit.Steady map first x) (hf : ∀ b, first b → Emit.Steady map good (f b)) :
    Emit.Steady map good (x >>= f) := by
  intro p r hr
  obtain ⟨a, b, ha, hb, rfl⟩ := (bind_eq_ok_iff x f p r).1 hr
  obtain ⟨code, value⟩ := hx p a ha
  obtain ⟨rest, result⟩ := hf a.value value a.pool b hb
  exact ⟨code.append rest, result⟩

theorem ofExcept {e : Except Fault α} (h : ∀ a, e = .ok a → good a) : Emit.Steady map good (ofExcept e) := by
  intro p r hr
  obtain ⟨a, ha, rfl⟩ := (ofExcept_eq_ok_iff e r).1 hr
  exact ⟨.nil, h a ha⟩

theorem ite {c : Prop} [Decidable c] {x y : Emit α} (hx : c → Emit.Steady map good x) (hy : ¬ c → Emit.Steady map good y) :
    Emit.Steady map good (if c then x else y) := by
  split
  · next h => exact hx h
  · next h => exact hy h

theorem lines {code : List Line} (hc : Lang.Steady map code) : Emit.Steady map (fun _ => True) (lines code) := by
  intro p r hr
  cases (lines_eq_ok_iff code r).1 hr
  exact ⟨hc, trivial⟩

theorem instr {i : Instr} (h : settled? i ≠ some .hp) (hs : straight i = true) : Emit.Steady map (fun _ => True) (instr i) :=
  .lines (.line (.instr h hs) .nil)

theorem setting {i : Instr} {r : Reg} (h : r ≠ .hp) (names : settled? i = some r) :
    Emit.Steady map (fun _ => True) (Emit.instr i) :=
  .lines (.line (.setting h names) .nil)

theorem pseudo {ps : Pseudo} (h : Plain [.pseudo ps]) : Emit.Steady map (fun _ => True) (pseudo ps) := by
  intro p r hr
  obtain ⟨-, rfl⟩ := (pseudo_eq_ok_iff ps r).1 hr
  exact ⟨.line h .nil, trivial⟩

theorem registers (change : RegPool → RegPool) : Emit.Steady map (fun _ => True) (registers change) := by
  intro p r hr
  cases (registers_eq_ok_iff change r).1 hr
  exact ⟨.nil, trivial⟩

/-- A register that is acquired is not the heap pointer. -/
theorem acquire (fragment : String) : Emit.Steady map (· ≠ .hp) (acquire fragment) := by
  intro p r hr
  obtain ⟨reg, q, hq, rfl⟩ := (acquire_eq_ok_iff fragment r).1 hr
  obtain ⟨_, found, he⟩ := Option.map_eq_some_iff.1 hq
  cases he
  exact ⟨.nil, RegPool.ne_of_mem_lent (List.mem_of_find?_eq_some found) (by decide)⟩

theorem occupy (rs : List Reg) : Emit.Steady map (fun _ => True) (occupy rs) := by
  induction rs with
  | nil => exact .pure trivial
  | cons r rs ih =>
    have one : Emit.Steady map (fun _ => True) fun p => .ok ⟨(p.occupy r).1, [], (p.occupy r).2⟩ := by
      intro p q hq
      cases hq
      exact ⟨.nil, trivial⟩
    exact one.bind fun _ _ => ih.bind fun _ _ => .pure trivial

theorem forM {f : α → Emit PUnit} (hf : ∀ a, Emit.Steady map (fun _ => True) (f a)) (as : List α) :
    Emit.Steady map (fun _ => True) (as.forM f) := by
  induction as with
  | nil => exact .pure trivial
  | cons a as ih => exact (hf a).bind fun _ _ => ih

end Emit.Steady

/-! ## Expressions and places -/

section

variable {map : MemoryMap} {site : Site} {v : Value}

theorem steady_offsetCode {dst : Reg} (h : dst ≠ .hp) (base : Reg) (offset : Int) :
    Emit.Steady map (fun _ => True) (offsetCode dst base offset) :=
  .ite (fun _ => .setting h rfl) fun _ => .bind (.pseudo (.gpr (by decide) _ _)) fun _ _ => .setting h rfl

theorem steady_literalCode (sc : Scalar) (w : Word) : Emit.Steady map (·.reg ≠ .hp) (literalCode site sc w) :=
  .bind (.acquire _) fun _ h => .bind (.pseudo (.gpr h _ _)) fun _ _ => .pure h

theorem steady_scaleCode {i : Reg} (h : i ≠ .hp) (size : Nat) : Emit.Steady map (fun _ => True) (scaleCode site i size) :=
  .ite (fun _ => .ite (fun _ => .pure trivial) fun _ => .setting h rfl) fun _ => .bind (.acquire _) fun _ hr =>
    .bind (.pseudo (.gpr hr _ _)) fun _ _ => .bind (.pseudo (.mul h h)) fun _ _ => .registers _

theorem settled?_lessInstr (ty : Ty) (dst x y : Reg) : settled? (lessInstr ty dst x y) = some dst := by
  unfold lessInstr
  split <;> rfl

theorem steady_applyCode {a b : Reg} (ha : a ≠ .hp) (hb : b ≠ .hp) (op : BinaryOp) (ty : Ty) :
    Emit.Steady map (fun _ => True) (applyCode op ty a b) := by
  have less (x y : Reg) : Plain [.instr (lessInstr ty a x y)] := .setting ha (settled?_lessInstr ty a x y)
  have flips : Plain [.instr (.xori a a 1)] := .setting ha rfl
  have differs : Plain [.instr (.arith .xor a a b)] := .setting ha rfl
  have one : Plain [.instr (.beq a .zero 2), .instr (.addi a .zero 1)] := .skip (fun he => ha (Option.some.inj he)) rfl
  cases op with
  | mul => exact .pseudo (.mul ha ha)
  | div =>
    refine .pseudo ?_
    split
    · exact .divt ha ha hb
    · exact .divu ha ha hb
  | lt => exact .lines (.line (less a b) .nil)
  | gt => exact .lines (.line (less b a) .nil)
  | le => exact .lines (.line (less b a) (.line flips .nil))
  | ge => exact .lines (.line (less a b) (.line flips .nil))
  | ne => exact .lines (.line differs (.plain one))
  | eq => exact .lines (.line differs ((Steady.plain one).append (.plain flips)))
  | _ => exact .setting ha rfl

theorem steady_binaryCode {l r : Value} (hl : l.reg ≠ .hp) (hr : r.reg ≠ .hp) (op : BinaryOp) :
    Emit.Steady map (·.reg ≠ .hp) (binaryCode site op l r) :=
  .bind (.ofExcept fun _ _ => trivial) fun _ _ => .ite (fun _ => .fail) fun _ => .bind (steady_applyCode hl hr op l.ty) fun _ _ =>
    .bind (.registers _) fun _ _ => .pure hl

theorem steady_unaryCode (h : v.reg ≠ .hp) (op : UnaryOp) : Emit.Steady map (·.reg ≠ .hp) (unaryCode site op v) := by
  cases op with
  | not =>
    have both : Steady map [.instr (.addi v.reg v.reg (-1)), .instr (.slt v.reg v.reg .zero)] :=
      .line (.setting h rfl) (.line (.setting h rfl) .nil)
    exact .bind (.ofExcept fun _ _ => trivial) fun _ _ => .bind (.lines both) fun _ _ => .pure h
  | neg => exact .bind (.ofExcept fun _ _ => trivial) fun _ _ => .bind (.setting h rfl) fun _ _ => .pure h

theorem steady_indexCode {address : Reg} {i : Value} (h : address ≠ .hp) (hi : i.reg ≠ .hp) (elem : Ty) :
    Emit.Steady map (·.reg ≠ .hp) (indexCode site address elem i) :=
  .ite (fun _ => .fail) fun _ => .bind (.ofExcept fun _ _ => trivial) fun size _ => .bind (steady_scaleCode hi size) fun _ _ =>
    .bind (.setting h rfl) fun _ _ => .bind (.registers _) fun _ _ => .pure h

theorem steady_elementsCode (h : v.reg ≠ .hp) : Emit.Steady map (fun _ => True) (elementsCode site v) := by
  unfold elementsCode
  split
  · exact .pure trivial
  · exact .bind (.setting h rfl) fun _ _ => .pure trivial
  · exact .fail

theorem steady_fieldCode (h : v.reg ≠ .hp) (name : String) : Emit.Steady map (·.reg ≠ .hp) (fieldCode site v name) := by
  unfold fieldCode
  split
  · exact .bind (.ofExcept fun _ _ => trivial) fun _ _ => .ite (fun _ => .bind (steady_offsetCode h _ _) fun _ _ => .pure h)
      fun _ => .pure h
  · exact .fail

theorem steady_derefCode (h : v.reg ≠ .hp) : Emit.Steady map (·.reg ≠ .hp) (derefCode site v) := by
  unfold derefCode
  split
  · exact .bind (.setting h rfl) fun _ _ => .pure h
  · exact .fail

theorem steady_varCode (name : String) : Emit.Steady map (·.reg ≠ .hp) (varCode site name) :=
  .bind (.ofExcept fun _ _ => trivial) fun (_, _, _) _ => .bind (.acquire _) fun _ h => .bind (steady_offsetCode h _ _) fun _ _ =>
    .pure h

theorem steady_loadCode (h : v.reg ≠ .hp) : Emit.Steady map (·.reg ≠ .hp) (loadCode site v) :=
  .ite (fun _ => .fail) fun _ => .bind (.setting h rfl) fun _ _ => .pure h

mutual

/-- The code of an expression leaves the heap pointer alone. -/
theorem steady_exprCode : ∀ e : Expr, Emit.Steady map (·.reg ≠ .hp) (exprCode site e)
  | .number value isUnsigned => by
    unfold exprCode
    exact .bind (.ofExcept fun _ _ => trivial) fun w _ => steady_literalCode _ w
  | .bool value => by
    unfold exprCode
    exact steady_literalCode _ _
  | .char value => by
    unfold exprCode
    exact steady_literalCode _ _
  | .place p => by
    unfold exprCode
    exact .bind (steady_placeCode p) fun _ h => steady_loadCode h
  | .unary op operand => by
    unfold exprCode
    exact .bind (steady_exprCode operand) fun _ h => steady_unaryCode h op
  | .binary op left right => by
    unfold exprCode
    exact .bind (steady_exprCode left) fun _ hl => .bind (steady_exprCode right) fun _ hr => steady_binaryCode hl hr op

/-- The code of a place leaves the heap pointer alone. -/
theorem steady_placeCode : ∀ p : Place, Emit.Steady map (·.reg ≠ .hp) (placeCode site p)
  | .var name => by
    unfold placeCode
    exact steady_varCode name
  | .index base i => by
    unfold placeCode
    exact .bind (steady_placeCode base) fun _ h => .bind (steady_elementsCode h) fun elem _ => .bind (steady_exprCode i) fun _ hi =>
      steady_indexCode h hi elem
  | .field base name => by
    unfold placeCode
    exact .bind (steady_placeCode base) fun _ h => steady_fieldCode h name
  | .deref base => by
    unfold placeCode
    exact .bind (steady_placeCode base) fun _ h => steady_derefCode h

end

/-! ## Statements -/

theorem steady_bumpCode {r : Reg} (h : r ≠ .hp) (delta : Int) : Emit.Steady map (fun _ => True) (bumpCode r delta) :=
  .ite (fun _ => .setting h rfl) fun _ => .bind (.pseudo (.gpr (by decide) _ _)) fun _ _ => .setting h rfl

theorem steady_stackCheckCode (map' : MemoryMap) : Emit.Steady map (fun _ => True) (stackCheckCode map') := by
  intro p r hr
  obtain rfl := Except.ok.inj ((stackCheckCode_eq _ _).symm.trans hr)
  refine ⟨.plain (.of_branches [(3, 3)] 6 (fun l hl => ?_) (fun _ => rfl) rfl (by decide)), trivial⟩
  have loads : Plain [.pseudo (.gpr .k0 map'.stackLimit .uint)] := .gpr (by decide) _ _
  simp only [Guard.check, List.mem_cons, List.not_mem_nil, or_false] at hl
  rcases hl with rfl | rfl | rfl | rfl | rfl
  · exact loads.tame _ List.mem_cons_self
  · exact .setting (r := .k0) (by decide) rfl
  · exact .branch rfl
  · exact .setting (r := .sig) (by decide) rfl
  · exact .instr (by decide) rfl

theorem steady_constCode {dst : Reg} (h : dst ≠ .hp) (value : Int) : Emit.Steady map (fun _ => True) (constCode dst value) :=
  .ite (fun _ => .setting h rfl) fun _ => .pseudo (.gpr h _ _)

theorem steady_storeCode (source base : Reg) (offset : Int) : Emit.Steady map (fun _ => True) (storeCode source base offset) :=
  .ite (fun _ => .instr nofun rfl) fun _ => .bind (steady_offsetCode (by decide) _ _) fun _ _ => .instr nofun rfl

theorem steady_prologueCode : Emit.Steady map (fun _ => True) (prologueCode site) := by
  refine .ite (fun _ => .ite (fun _ => .bind (steady_bumpCode (by decide) _) fun _ _ => steady_stackCheckCode _)
    fun _ => .pure trivial) fun _ => .bind (.instr nofun rfl) fun _ _ => ?_
  split
  · exact .pure trivial
  · exact .bind (.acquire _) fun _ hb => .bind (.acquire _) fun _ hc => .bind (steady_offsetCode hb _ _) fun _ _ =>
      .bind (steady_constCode hc _) fun _ _ => .bind (.pseudo (.zero hb hc)) fun _ _ => .registers _

theorem steady_exitCode (value : Option Expr) : Emit.Steady map (fun _ => True) (exitCode site value) := by
  have sets {i : Instr} (names : settled? i = some .sig) : Emit.Steady map (fun _ => True) (Emit.instr i) :=
    .setting (by decide) names
  cases value with
  | none => exact .bind (sets rfl) fun _ _ => .instr nofun rfl
  | some e => exact .bind (steady_exprCode e) fun _ _ => .bind (sets rfl) fun _ _ => .instr nofun rfl

theorem steady_resultCode (e : Expr) : Emit.Steady map (fun _ => True) (resultCode site e) := by
  unfold resultCode
  split
  · exact .fail
  · exact .bind (steady_exprCode e) fun _ _ => .bind (.ofExcept fun _ _ => trivial) fun _ _ => .bind (.acquire _) fun _ h =>
      .lines (.line (.setting h rfl) (.plain (.skip nofun rfl)))

theorem steady_returnCode (value : Option Expr) : Emit.Steady map (fun _ => True) (returnCode site value) := by
  refine .ite (fun _ => steady_exitCode value) fun _ => ?_
  have leave : Emit.Steady map (fun _ => True) (do
      Emit.instr (.lw .ra .sp 4)
      bumpCode .sp ((site.self.frame.size + Site.linkArea : Nat) : Int)
      Emit.instr (.jr .ra)) :=
    .bind (.setting (r := .ra) (by decide) rfl) fun _ _ => .bind (steady_bumpCode (by decide) _) fun _ _ => .instr nofun rfl
  cases value with
  | none => exact leave
  | some e => exact .bind (steady_resultCode e) fun _ _ => leave

theorem steady_assignCode (target : Place) (e : Expr) : Emit.Steady map (fun _ => True) (assignCode site target e) :=
  .bind (steady_exprCode e) fun _ _ => .bind (steady_placeCode target) fun _ _ => .bind (.ofExcept fun _ _ => trivial) fun _ _ =>
    .instr nofun rfl

theorem newSize_lt (hb : site.scope.types.Bounded) {ty : Ty} {size : Nat} (h : newSize site ty = .ok size) :
    size < addressSpace := by
  unfold newSize at h
  cases checked : site.scope.types.check ty with
  | error fault => rw [checked] at h; cases h
  | ok _ =>
  rw [checked] at h
  cases ty with
  | pointer target => exact hb.sizeOf_lt h
  | scalar sc => cases h
  | struct name => cases h
  | array elem length => cases h

/-- A new object is an allotment. -/
theorem steady_newCode (hb : site.scope.types.Bounded) (target : Place) (ty : Ty) :
    Emit.Steady site.scope.map (fun _ => True) (newCode site target ty) := by
  intro p r hr
  obtain ⟨size, d, hn, hd, code⟩ := newCode_eq_ok hr
  rw [code]
  exact ⟨(steady_placeCode target p d hd).1.append (.line (.instr nofun rfl) (.allot (newSize_lt hb hn))), trivial⟩

/-! ### Register statements -/

theorem steady_sparingCode {n : Nat} {spared : List Nat} {code : Reg → Emit Unit}
    (h : ∀ reg, namedReg site n = .ok reg → Emit.Steady map (fun _ => True) (code reg)) :
    Emit.Steady map (fun _ => True) (sparingCode site n spared code) := by
  have named : Emit.Steady map (fun reg => namedReg site n = .ok reg) (Emit.ofExcept (namedReg site n)) :=
    .ofExcept fun _ known => known
  exact .bind named fun reg known => .bind (.ofExcept fun _ _ => trivial) fun _ _ => .bind (.occupy _) fun _ _ =>
    .bind (h reg known) fun _ _ => .forM (fun _ => .registers _) _

theorem steady_wordPlaceCode (place : Place) : Emit.Steady map (· ≠ .hp) (wordPlaceCode site place) :=
  .bind (steady_placeCode place) fun _ h => .ite (fun _ => .fail) fun _ => .pure h

theorem namedReg_ne_hp {n : Nat} {reg : Reg} (h : namedReg site n = .ok reg) (hn : n ≠ Reg.hp.num.val) : reg ≠ .hp := by
  rintro rfl
  unfold namedReg Reg.ofNat? at h
  split at h
  · next r hr =>
    split at h
    · cases h
    · cases h
      split at hr
      · exact hn (congrArg (fun r : Reg => r.num.val) (Option.some.inj hr))
      · cases hr
  · cases h

/-- Copying to a register sets that register. -/
theorem steady_toGprCode {n : Nat} (hn : n ≠ Reg.hp.num.val) (source : Place) (spared : List Nat) :
    Emit.Steady map (fun _ => True) (toGprCode site n source spared) :=
  steady_sparingCode fun _ known => .bind (steady_wordPlaceCode source) fun _ h =>
    .lines (.line (.setting h rfl) (.line (.setting (namedReg_ne_hp known hn) rfl) .nil))

theorem steady_fromGprCode (n : Nat) (target : Place) (spared : List Nat) :
    Emit.Steady map (fun _ => True) (fromGprCode site target n spared) :=
  steady_sparingCode fun _ _ => .bind (steady_wordPlaceCode target) fun _ _ => .instr nofun rfl

/-! ### Calls -/

theorem steady_destinationCode (callee : Signature) (target : Option Place) :
    Emit.Steady map (fun _ => True) (destinationCode site callee target) := by
  unfold destinationCode
  split
  · exact .pure trivial
  · exact .fail
  · exact .bind (steady_placeCode _) fun _ _ => .bind (.ofExcept fun _ _ => trivial) fun _ _ => .pure trivial

theorem steady_argsCode (args : List Expr) (params : List Var) : Emit.Steady map (fun _ => True) (argsCode site args params) := by
  induction args generalizing params with
  | nil => exact .pure trivial
  | cons e es ih =>
    cases params with
    | nil => exact .pure trivial
    | cons param params =>
      exact .bind (steady_exprCode e) fun _ _ => .bind (.ofExcept fun _ _ => trivial) fun _ _ => .bind (ih params) fun _ _ =>
        .pure trivial

theorem steady_callCode (c : Call) (target : Option Place) : Emit.Steady map (fun _ => True) (callCode site c target) :=
  .bind (.ofExcept fun _ _ => trivial) fun callee _ => .ite (fun _ => .fail) fun _ => .bind (steady_destinationCode _ _) fun _ _ =>
    .ite (fun _ => .fail) fun _ => .bind (steady_argsCode _ _) fun args _ => .bind (steady_bumpCode (by decide) _) fun _ _ =>
      .bind (steady_stackCheckCode _) fun _ _ => .bind (.instr nofun rfl) fun _ _ =>
        .bind (.forM (fun _ => steady_storeCode _ _ _) args) fun _ _ => .lines (.line (.jump _ _) .nil)

/-! ### Loops and branches -/

theorem steady_condCode (cond : Expr) : Emit.Steady map (fun _ => True) (condCode site cond) :=
  .bind (steady_exprCode cond) fun _ _ => .bind (.ofExcept fun _ _ => trivial) fun _ _ => .pure trivial

variable {cond : Expr} {body other : Emit Unit}

theorem branch?_forward {c : Reg} {n : Nat} (h : n < branchLimit) : branch? (.beq c .zero (Int16.ofNat n)) = some (n : Int) :=
  congrArg some (Int16.toInt_ofNat_of_lt h)

theorem steady_whileCode (h : Emit.Steady map (fun _ => True) body) :
    Emit.Steady map (fun _ => True) (whileCode site cond body) := by
  intro p r hr
  obtain ⟨a, b, ha, hb, out, back, code⟩ := whileCode_eq_ok hr
  rw [code]
  exact ⟨.loop (steady_condCode cond _ a ha).1 (h _ b hb).1 (branch?_forward out) (congrArg some (toInt_neg_ofNat back)), trivial⟩

theorem steady_ifThenCode (h : Emit.Steady map (fun _ => True) body) :
    Emit.Steady map (fun _ => True) (ifThenCode site cond body) := by
  intro p r hr
  obtain ⟨a, b, ha, hb, past, code⟩ := ifThenCode_eq_ok hr
  rw [code]
  exact ⟨.choice (steady_condCode cond _ a ha).1 (h _ b hb).1 (branch?_forward past), trivial⟩

theorem steady_ifElseCode (h : Emit.Steady map (fun _ => True) body) (ho : Emit.Steady map (fun _ => True) other) :
    Emit.Steady map (fun _ => True) (ifElseCode site cond body other) := by
  intro p r hr
  obtain ⟨a, b, d, ha, hb, hd, around, past, code⟩ := ifElseCode_eq_ok hr
  rw [code]
  exact ⟨.choices (steady_condCode cond _ a ha).1 (h _ b hb).1 (ho _ d hd).1 (branch?_forward around) (branch?_forward past),
    trivial⟩

end

/-! ### Statements in statements -/

/-- Whether no statement, at any depth, copies to the register of the heap pointer. -/
def SparesHeap (stmts : List Stmt) : Prop := ∀ path source spared, stmtAt? path stmts ≠ some (.toGpr Reg.hp.num source spared)

mutual

theorem steady_stmtCode (site : Site) (hb : site.scope.types.Bounded) : ∀ (s : Stmt) (rest : List Stmt), SparesHeap (s :: rest) →
    Emit.Steady site.scope.map (fun _ => True) (stmtCode site s)
  | .while cond body, rest, h => by
    unfold stmtCode
    exact steady_whileCode (steady_stmtsCode site hb body fun path => h (.body :: path))
  | .ifThen cond body, rest, h => by
    unfold stmtCode
    exact steady_ifThenCode (steady_stmtsCode site hb body fun path => h (.body :: path))
  | .ifElse cond body other, rest, h => by
    unfold stmtCode
    exact steady_ifElseCode (steady_stmtsCode site hb body fun path => h (.body :: path))
      (steady_stmtsCode site hb other fun path => h (.other :: path))
  | .return value, rest, h => by
    unfold stmtCode
    exact steady_returnCode value
  | .toGpr reg source spared, rest, h => by
    unfold stmtCode
    exact steady_toGprCode (fun he => h [] source spared (by rw [← he]; rfl)) source spared
  | .fromGpr target reg spared, rest, h => by
    unfold stmtCode
    exact steady_fromGprCode reg target spared
  | .call c, rest, h => by
    unfold stmtCode
    exact steady_callCode c none
  | .assign target (.call c), rest, h => by
    unfold stmtCode
    exact steady_callCode c (some target)
  | .assign target (.new ty), rest, h => by
    unfold stmtCode
    exact steady_newCode hb target ty
  | .assign target (.expr e), rest, h => by
    unfold stmtCode
    exact steady_assignCode target e

theorem steady_stmtsCode (site : Site) (hb : site.scope.types.Bounded) : ∀ stmts : List Stmt, SparesHeap stmts →
    Emit.Steady site.scope.map (fun _ => True) (stmtsCode site stmts)
  | [], _ => by
    unfold stmtsCode
    exact .pure trivial
  | s :: rest, h => by
    unfold stmtsCode
    exact .bind (steady_stmtCode (site.saying s.text) hb s rest h) fun _ _ => .bind (.registers _) fun _ _ =>
      steady_stmtsCode site hb rest fun path => h (.next :: path)

end

/-! ## Programs -/

variable {scope : Scope} {p : Program} {code : List Line}

theorem steady_functionCode (hb : scope.types.Bounded) {f : Function} {piece : List Line} (h : IsCodeOf scope f piece)
    (spares : SparesHeap f.body) : Steady scope.map piece := by
  obtain ⟨self, -, hc⟩ := h
  obtain ⟨r, hr, rfl⟩ := functionCode_eq_ok hc
  have body : Emit.Steady scope.map (fun _ => True) (bodyCode { scope, self } f.body) :=
    .bind steady_prologueCode fun _ _ => .bind (steady_stmtsCode { scope, self } hb f.body spares) fun _ _ =>
      .ite (fun _ => .pure trivial) fun _ => steady_returnCode none
  exact .line (.label _) (body _ r hr).1

theorem steady_functions (hb : scope.types.Bounded) {fs : List Function} {pieces : List (List Line)}
    (h : List.Forall₂ (IsCodeOf scope) fs pieces) (spares : ∀ f ∈ fs, SparesHeap f.body) : Steady scope.map pieces.flatten := by
  induction h with
  | nil => exact .nil
  | cons first _ ih =>
    rw [List.flatten_cons]
    exact (steady_functionCode hb first (spares _ List.mem_cons_self)).append
      (ih fun f hf => spares f (List.mem_cons_of_mem _ hf))

/-- In a program without copies to the register of the heap pointer, all that follows the first lines is steady. -/
theorem steady_programCode (hb : scope.types.Bounded) (hc : programCode scope p = .ok code)
    (spares : ∀ f ∈ p.functions, SparesHeap f.body) : ∃ rest, code = startCode scope.map ++ rest ∧ Steady scope.map rest := by
  obtain ⟨pieces, hp, rfl⟩ := programCode_eq_ok hc
  exact ⟨_, rfl, steady_functions hb hp spares⟩

end M32.Lang
