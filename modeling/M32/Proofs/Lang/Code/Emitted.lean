/-
  Generated code consists of lines that may be generated.

  1. `Emit.Writes` holds of a piece of code whose lines all are `Line.IsWritten`; pieces in a row are if each of them is
     (`Writes.bind`).
  2. Every piece is, from the constant to the function, as long as no value fills the address space: then shifts stay
     below 32.
  3. `written_programCode`: the labels and jumps of a program have names of its functions.
-/
import M32.Lang.Code.Program
import M32.Proofs.Lang.Code.Pieces
import M32.Proofs.Lang.Code.Written
import M32.Proofs.Lang.Scope.Collected
import Mathlib.Data.List.Forall2

namespace M32.Lang

namespace Emit

variable {α β : Type} {names : String → Prop}

/-- Code whose lines may all be generated, with no label among them. -/
def Writes (names : String → Prop) (x : Emit α) : Prop :=
  ∀ p r, x p = .ok r → ∀ l ∈ r.code, l.IsInner names

namespace Writes

theorem pure (a : α) : Writes names (Pure.pure a) := fun p r h l hl => by
  cases h
  cases hl

theorem bind {x : Emit α} {f : α → Emit β} (hx : Writes names x) (hf : ∀ a, Writes names (f a)) : Writes names (x >>= f) := by
  intro p r h l hl
  obtain ⟨a, b, ha, hb, rfl⟩ := (bind_eq_ok_iff x f p r).1 h
  rcases List.mem_append.1 hl with hl | hl
  · exact hx p a ha l hl
  · exact hf a.value a.pool b hb l hl

/-- Code that hangs on a value that may fail only counts for the values that it has. -/
theorem bind_ofExcept {e : Except Fault α} {f : α → Emit β} (hf : ∀ a, e = .ok a → Writes names (f a)) :
    Writes names (ofExcept e >>= f) := by
  intro p r h l hl
  obtain ⟨a, b, ha, hb, rfl⟩ := (bind_eq_ok_iff (ofExcept e) f p r).1 h
  obtain ⟨v, hv, rfl⟩ := (ofExcept_eq_ok_iff e a).1 ha
  exact hf v hv _ b hb l hl

theorem ite {c : Prop} [Decidable c] {x y : Emit α} (hx : c → Writes names x) (hy : ¬ c → Writes names y) :
    Writes names (if c then x else y) := by
  split
  · next h => exact hx h
  · next h => exact hy h

/-! ### Pieces -/

theorem ofExcept (e : Except Fault α) : Writes names (ofExcept e) := fun p r h l hl => by
  obtain ⟨a, -, rfl⟩ := (ofExcept_eq_ok_iff e r).1 h
  cases hl

theorem fail (fault : Fault) : Writes names (fail fault : Emit α) := fun _ r h => absurd h (fail_ne_ok fault r)

theorem lines {code : List Line} (hc : ∀ l ∈ code, l.IsInner names) : Writes names (lines code) := fun p r h l hl => by
  cases (lines_eq_ok_iff code r).1 h
  exact hc l hl

theorem instr {i : Instr} (hi : i.IsLegal) : Writes names (instr i) := lines fun l hl => by
  rw [List.mem_singleton.1 hl]
  exact hi

theorem pseudo {ps : Pseudo} (hp : ps.IsWritten) : Writes names (pseudo ps) := fun p r h l hl => by
  obtain ⟨permitted, rfl⟩ := (pseudo_eq_ok_iff ps r).1 h
  rw [List.mem_singleton.1 hl]
  exact ⟨hp, permitted⟩

theorem registers (change : RegPool → RegPool) : Writes names (registers change) := fun p r h l hl => by
  cases (registers_eq_ok_iff change r).1 h
  cases hl

theorem acquire (fragment : String) : Writes names (acquire fragment) := fun p r h l hl => by
  obtain ⟨reg, q, -, rfl⟩ := (acquire_eq_ok_iff fragment r).1 h
  cases hl

theorem release (r : Reg) : Writes names (release r) := registers _

theorem occupy (rs : List Reg) : Writes names (occupy rs) := by
  induction rs with
  | nil => exact pure _
  | cons r rs ih =>
    refine bind (fun p q h l hl => ?_) fun _ => ih.bind fun _ => pure _
    cases h
    cases hl

theorem forM {f : α → Emit PUnit} (hf : ∀ a, Writes names (f a)) (as : List α) : Writes names (as.forM f) := by
  induction as with
  | nil => exact pure _
  | cons a as ih => exact (hf a).bind fun _ => ih

/-- Code that places captured code may be generated if it may with all code in that place that may. -/
theorem bind_capture {x : Emit α} {f : α × List Line → Emit β} (hx : Writes names x)
    (hf : ∀ a code, (∀ l ∈ code, l.IsInner names) → Writes names (f (a, code))) : Writes names (Emit.capture x >>= f) := by
  intro p r h l hl
  obtain ⟨a, b, ha, hb, rfl⟩ := (bind_eq_ok_iff _ _ _ _).1 h
  obtain ⟨c, hc, rfl⟩ := (capture_eq_ok_iff _ _).1 ha
  exact hf c.value c.code (hx p c hc) _ b hb l hl

theorem bind_captureRetaining {x : Emit Unit} {c : Reg} {f : List Line → Emit β} (hx : Writes names x)
    (hf : ∀ code, (∀ l ∈ code, l.IsInner names) → Writes names (f code)) : Writes names (Emit.captureRetaining c x >>= f) := by
  intro p r h l hl
  obtain ⟨a, b, ha, hb, rfl⟩ := (bind_eq_ok_iff _ _ _ _).1 h
  obtain ⟨d, hd, rfl⟩ := (captureRetaining_eq_ok_iff _ _ _).1 ha
  exact hf d.code (hx _ d hd) _ b hb l hl

end Writes

end Emit

/-! ## Expressions and places -/

open Emit (Writes)

section

variable {names : String → Prop} {site : Site}

theorem writes_offsetCode (dst base : Reg) (offset : Int) : Writes names (offsetCode dst base offset) :=
  .ite (fun _ => .instr trivial) fun _ => .bind (.pseudo (by intro h; cases h)) fun _ => .instr trivial

theorem writes_literalCode {s : Scalar} {w : Word} (h : s.IsValue w) : Writes names (literalCode site s w) :=
  Writes.bind (.acquire _) fun _ => .bind (.pseudo h) fun _ => .pure _

theorem log2_lt {size : Nat} (h : size < addressSpace) : size.log2 < 32 := by
  by_cases h0 : size = 0
  · subst h0
    decide
  · exact (Nat.log2_lt h0).2 h

theorem writes_scaleCode (i : Reg) {size : Nat} (h : size < addressSpace) : Writes names (scaleCode site i size) := by
  have amount : (UInt8.ofNat size.log2).toNat < 32 := by
    have := log2_lt h
    rw [UInt8.toNat_ofNat_of_lt' (by simp [UInt8.size]; omega)]
    exact this
  unfold scaleCode
  split
  · split
    · exact .pure _
    · exact .instr amount
  · exact .bind (.acquire _) fun _ => .bind (.pseudo (by intro h; cases h)) fun _ => .bind (.pseudo trivial) fun _ => .release _

theorem legal_lessInstr (ty : Ty) (dst x y : Reg) : (lessInstr ty dst x y).IsLegal := by
  unfold lessInstr
  split <;> trivial

theorem writes_applyCode (op : BinaryOp) (ty : Ty) (a b : Reg) : Writes names (applyCode op ty a b) := by
  cases op with
  | div => exact .pseudo (by split <;> trivial)
  | mul => exact .pseudo trivial
  | lt => exact .instr (legal_lessInstr _ _ _ _)
  | gt => exact .instr (legal_lessInstr _ _ _ _)
  | le => exact .lines (List.forall_mem_cons.2 ⟨legal_lessInstr _ _ _ _, List.forall_mem_singleton.2 trivial⟩)
  | ge => exact .lines (List.forall_mem_cons.2 ⟨legal_lessInstr _ _ _ _, List.forall_mem_singleton.2 trivial⟩)
  | eq => exact .lines (by simp [Line.IsWritten, Instr.IsLegal])
  | ne => exact .lines (by simp [Line.IsWritten, Instr.IsLegal])
  | _ => exact .instr trivial

theorem writes_binaryCode (op : BinaryOp) (l r : Value) : Writes names (binaryCode site op l r) :=
  Writes.bind (.ofExcept _) fun _ => .ite (fun _ => .fail _) fun _ =>
    (writes_applyCode _ _ _ _).bind fun _ => .bind (.release _) fun _ => .pure _

theorem writes_unaryCode (op : UnaryOp) (v : Value) : Writes names (unaryCode site op v) := by
  cases op with
  | not =>
    exact Writes.bind (.ofExcept _) fun _ => .bind (.lines (by simp [Line.IsWritten, Instr.IsLegal])) fun _ => .pure _
  | neg => exact Writes.bind (.ofExcept _) fun _ => .bind (.instr trivial) fun _ => .pure _

theorem writes_indexCode (hb : site.scope.types.Bounded) (address : Reg) (elem : Ty) (i : Value) :
    Writes names (indexCode site address elem i) :=
  .ite (fun _ => .fail _) fun _ => .bind_ofExcept fun _ hs => (writes_scaleCode _ (hb.sizeOf_lt hs)).bind fun _ =>
    Writes.bind (.instr trivial) fun _ => .bind (.release _) fun _ => .pure _

theorem writes_elementsCode (v : Value) : Writes names (elementsCode site v) := by
  unfold elementsCode
  split
  · exact .pure _
  · exact Writes.bind (.instr trivial) fun _ => .pure _
  · exact .fail _

theorem writes_fieldCode (v : Value) (name : String) : Writes names (fieldCode site v name) := by
  unfold fieldCode
  split
  · exact Writes.bind (.ofExcept _) fun _ =>
      .ite (fun _ => (writes_offsetCode _ _ _).bind fun _ => .pure _) fun _ => .bind (.pure _) fun _ => .pure _
  · exact .fail _

theorem writes_derefCode (v : Value) : Writes names (derefCode site v) := by
  unfold derefCode
  split
  · exact Writes.bind (.instr trivial) fun _ => .pure _
  · exact .fail _

theorem writes_varCode (name : String) : Writes names (varCode site name) :=
  Writes.bind (.ofExcept _) fun (_, _, _) => .bind (.acquire _) fun _ => (writes_offsetCode _ _ _).bind fun _ => .pure _

theorem writes_loadCode (v : Value) : Writes names (loadCode site v) :=
  .ite (fun _ => .fail _) fun _ => .bind (.instr trivial) fun _ => .pure _

mutual

theorem writes_exprCode (hb : site.scope.types.Bounded) : ∀ e : Expr, Writes names (exprCode site e)
  | .number value isUnsigned => by
    unfold exprCode
    refine Writes.bind (.ofExcept _) fun w => writes_literalCode ?_
    cases isUnsigned <;> exact fun h => by cases h
  | .bool value => by
    unfold exprCode
    refine writes_literalCode fun _ => ?_
    cases value
    · exact .inl rfl
    · exact .inr rfl
  | .char value => by
    unfold exprCode
    exact writes_literalCode fun h => by cases h
  | .place p => by
    unfold exprCode
    exact (writes_placeCode hb p).bind fun _ => writes_loadCode _
  | .unary op operand => by
    unfold exprCode
    exact (writes_exprCode hb operand).bind fun _ => writes_unaryCode _ _
  | .binary op left right => by
    unfold exprCode
    exact (writes_exprCode hb left).bind fun _ => (writes_exprCode hb right).bind fun _ => writes_binaryCode _ _ _

theorem writes_placeCode (hb : site.scope.types.Bounded) : ∀ p : Place, Writes names (placeCode site p)
  | .var name => by
    unfold placeCode
    exact writes_varCode name
  | .index base i => by
    unfold placeCode
    exact (writes_placeCode hb base).bind fun _ => (writes_elementsCode _).bind fun _ =>
      (writes_exprCode hb i).bind fun _ => writes_indexCode hb _ _ _
  | .field base name => by
    unfold placeCode
    exact (writes_placeCode hb base).bind fun _ => writes_fieldCode _ _
  | .deref base => by
    unfold placeCode
    exact (writes_placeCode hb base).bind fun _ => writes_derefCode _

end

/-! ## Statements -/

theorem writes_bumpCode (r : Reg) (delta : Int) : Writes names (bumpCode r delta) :=
  .ite (fun _ => .instr trivial) fun _ => Writes.bind (.pseudo (by intro h; cases h)) fun _ => .instr trivial

theorem writes_signalCode (signal : Int16) : Writes names (signalCode signal) :=
  .lines (by simp [Line.IsWritten, Instr.IsLegal])

theorem writes_stackCheckCode (map : MemoryMap) : Writes names (stackCheckCode map) :=
  Writes.bind (.pseudo (by intro h; cases h)) fun _ => .bind (.instr trivial) fun _ => writes_signalCode _

theorem writes_heapCheckCode (map : MemoryMap) : Writes names (heapCheckCode map) :=
  Writes.bind (.pseudo (by intro h; cases h)) fun _ => .bind (.instr trivial) fun _ => writes_signalCode _

theorem writes_constCode (dst : Reg) (value : Int) : Writes names (constCode dst value) :=
  .ite (fun _ => .instr trivial) fun _ => .pseudo (by intro h; cases h)

theorem writes_storeCode (source base : Reg) (offset : Int) : Writes names (storeCode source base offset) :=
  .ite (fun _ => .instr trivial) fun _ => (writes_offsetCode _ _ _).bind fun _ => .instr trivial

theorem writes_prologueCode : Writes names (prologueCode site) :=
  .ite (fun _ => .ite (fun _ => (writes_bumpCode _ _).bind fun _ => writes_stackCheckCode _) fun _ => .pure _) fun _ =>
    Writes.bind (.instr trivial) fun _ => by
      split
      · exact .pure _
      · exact .bind (.acquire _) fun _ => .bind (.acquire _) fun _ => (writes_offsetCode _ _ _).bind fun _ =>
          (writes_constCode _ _).bind fun _ => .bind (.pseudo trivial) fun _ => .registers _

theorem writes_exitCode (hb : site.scope.types.Bounded) (value : Option Expr) : Writes names (exitCode site value) := by
  cases value with
  | none => exact Writes.bind (.instr trivial) fun _ => .instr trivial
  | some e =>
    exact (writes_exprCode hb e).bind fun v => Writes.bind (.instr (i := .add .sig v.reg .zero) trivial) fun _ => .instr trivial

theorem writes_resultCode (hb : site.scope.types.Bounded) (e : Expr) : Writes names (resultCode site e) := by
  unfold resultCode
  split
  · exact .fail _
  · exact (writes_exprCode hb e).bind fun _ => .bind (.ofExcept _) fun _ => .bind (.acquire _) fun _ =>
      .lines (by simp [Line.IsWritten, Instr.IsLegal])

theorem writes_returnCode (hb : site.scope.types.Bounded) (value : Option Expr) : Writes names (returnCode site value) := by
  refine .ite (fun _ => writes_exitCode hb value) fun _ => ?_
  have leave : Writes names (do
      Emit.instr (.lw .ra .sp 4)
      bumpCode .sp ((site.self.frame.size + Site.linkArea : Nat) : Int)
      Emit.instr (.jr .ra)) :=
    Writes.bind (.instr trivial) fun _ => (writes_bumpCode _ _).bind fun _ => .instr trivial
  cases value with
  | none => exact leave
  | some e => exact (writes_resultCode hb e).bind fun _ => leave

theorem writes_assignCode (hb : site.scope.types.Bounded) (target : Place) (e : Expr) : Writes names (assignCode site target e) :=
  (writes_exprCode hb e).bind fun _ => (writes_placeCode hb target).bind fun _ => .bind (.ofExcept _) fun _ => .instr trivial

theorem writes_newCode (hb : site.scope.types.Bounded) (target : Place) (ty : Ty) : Writes names (newCode site target ty) :=
  Writes.bind (.ofExcept _) fun _ => (writes_placeCode hb target).bind fun _ => .bind (.ofExcept _) fun _ =>
    .bind (.instr trivial) fun _ => (writes_bumpCode _ _).bind fun _ => writes_heapCheckCode _

theorem writes_sparingCode {n : Nat} {spared : List Nat} {code : Reg → Emit Unit} (hc : ∀ r, Writes names (code r)) :
    Writes names (sparingCode site n spared code) :=
  Writes.bind (.ofExcept _) fun _ => .bind (.ofExcept _) fun _ => .bind (.occupy _) fun _ => (hc _).bind fun _ =>
    .forM (fun _ => .release _) _

theorem writes_wordPlaceCode (hb : site.scope.types.Bounded) (p : Place) : Writes names (wordPlaceCode site p) :=
  (writes_placeCode hb p).bind fun _ => .ite (fun _ => .fail _) fun _ => .pure _

theorem writes_toGprCode (hb : site.scope.types.Bounded) (n : Nat) (source : Place) (spared : List Nat) :
    Writes names (toGprCode site n source spared) :=
  writes_sparingCode fun _ => (writes_wordPlaceCode hb source).bind fun _ => .lines (by simp [Line.IsWritten, Instr.IsLegal])

theorem writes_fromGprCode (hb : site.scope.types.Bounded) (target : Place) (n : Nat) (spared : List Nat) :
    Writes names (fromGprCode site target n spared) :=
  writes_sparingCode fun _ => (writes_wordPlaceCode hb target).bind fun _ => .instr trivial

theorem writes_destinationCode (hb : site.scope.types.Bounded) (callee : Signature) (target : Option Place) :
    Writes names (destinationCode site callee target) := by
  unfold destinationCode
  split
  · exact .pure _
  · exact .fail _
  · exact (writes_placeCode hb _).bind fun _ => .bind (.ofExcept _) fun _ => .pure _

theorem writes_argsCode (hb : site.scope.types.Bounded) (args : List Expr) (params : List Var) :
    Writes names (argsCode site args params) := by
  induction args generalizing params with
  | nil => exact .pure _
  | cons e es ih =>
    cases params with
    | nil => exact .pure _
    | cons param params =>
      exact (writes_exprCode hb e).bind fun _ => .bind (.ofExcept _) fun _ => (ih params).bind fun _ => .pure _

theorem writes_storeArgsCode (args : List (Reg × Nat)) : Writes names (storeArgsCode args) :=
  .forM (fun _ => writes_storeCode _ _ _) args

/-- A call jumps to a function of the program. -/
theorem writes_callCode (hb : site.scope.types.Bounded) (hn : ∀ f ∈ site.scope.functions, names f.name) (c : Call)
    (target : Option Place) : Writes names (callCode site c target) := by
  refine .bind_ofExcept fun callee hf => ?_
  have known : names callee.name := by
    unfold Scope.function at hf
    split at hf
    · next f hs =>
      cases hf
      exact hn _ (List.mem_of_find?_eq_some hs)
    · cases hf
  exact .ite (fun _ => .fail _) fun _ => (writes_destinationCode hb _ _).bind fun _ => .ite (fun _ => .fail _) fun _ =>
    (writes_argsCode hb _ _).bind fun _ => (writes_bumpCode _ _).bind fun _ => (writes_stackCheckCode _).bind fun _ =>
      .bind (.instr trivial) fun _ => (writes_storeArgsCode _).bind fun _ =>
        .lines (List.forall_mem_singleton.2 ⟨.inr rfl, known⟩)

theorem writes_condCode (hb : site.scope.types.Bounded) (cond : Expr) : Writes names (condCode site cond) :=
  (writes_exprCode hb cond).bind fun _ => .bind (.ofExcept _) fun _ => .pure _

/-- Branches fit their fields, whatever they pass. -/
theorem written_branch {r s : Reg} {offset : Int16} : Line.IsInner names (.instr (.beq r s offset)) := trivial

theorem branchIfZero_written {c : Reg} {skip : Nat} {i : Instr} (h : branchIfZero c skip = .ok i) :
    Line.IsInner names (.instr i) := by
  unfold branchIfZero at h
  split at h
  · cases h; exact written_branch
  · cases h

theorem jumpBack_written {back : Nat} {i : Instr} (h : jumpBack back = .ok i) : Line.IsInner names (.instr i) := by
  unfold jumpBack at h
  split at h
  · cases h; exact written_branch
  · cases h

theorem writes_whileCode (hb : site.scope.types.Bounded) (cond : Expr) {body : Emit Unit} (h : Writes names body) :
    Writes names (whileCode site cond body) :=
  .bind_capture (writes_condCode hb cond) fun c test ht => .bind_captureRetaining h fun inside hi =>
    .bind_ofExcept fun out ho => .bind_ofExcept fun back hk => .lines (by
      simp only [List.forall_mem_append, List.forall_mem_cons, List.not_mem_nil, false_implies, implies_true, and_true]
      exact ⟨⟨ht, branchIfZero_written ho, hi⟩, jumpBack_written hk⟩)

theorem writes_ifThenCode (hb : site.scope.types.Bounded) (cond : Expr) {body : Emit Unit} (h : Writes names body) :
    Writes names (ifThenCode site cond body) :=
  .bind_capture (writes_condCode hb cond) fun c test ht => .bind_captureRetaining h fun inside hi =>
    .bind_ofExcept fun past hp => .lines (by
      simp only [List.forall_mem_append, List.forall_mem_cons]
      exact ⟨ht, branchIfZero_written hp, hi⟩)

theorem writes_ifElseCode (hb : site.scope.types.Bounded) (cond : Expr) {body other : Emit Unit} (h : Writes names body)
    (ho : Writes names other) : Writes names (ifElseCode site cond body other) :=
  .bind_capture (writes_condCode hb cond) fun c test ht => .bind_captureRetaining h fun inside hi =>
    .bind_capture ho fun _ otherwise he => .bind_ofExcept fun past hp => .bind_ofExcept fun around ha => .lines (by
      simp only [List.forall_mem_append, List.forall_mem_cons]
      exact ⟨⟨ht, branchIfZero_written ha, hi⟩, branchIfZero_written hp, he⟩)

mutual

theorem writes_stmtCode {site : Site} (hb : site.scope.types.Bounded) (hn : ∀ f ∈ site.scope.functions, names f.name) :
    ∀ s : Stmt, Writes names (stmtCode site s)
  | .while cond body => by
    unfold stmtCode
    exact writes_whileCode hb cond (writes_stmtsCode hb hn body)
  | .ifThen cond body => by
    unfold stmtCode
    exact writes_ifThenCode hb cond (writes_stmtsCode hb hn body)
  | .ifElse cond body other => by
    unfold stmtCode
    exact writes_ifElseCode hb cond (writes_stmtsCode hb hn body) (writes_stmtsCode hb hn other)
  | .return value => by
    unfold stmtCode
    exact writes_returnCode hb value
  | .toGpr reg source spared => by
    unfold stmtCode
    exact writes_toGprCode hb reg source spared
  | .fromGpr target reg spared => by
    unfold stmtCode
    exact writes_fromGprCode hb target reg spared
  | .call c => by
    unfold stmtCode
    exact writes_callCode hb hn c none
  | .assign target (.call c) => by
    unfold stmtCode
    exact writes_callCode hb hn c (some target)
  | .assign target (.new ty) => by
    unfold stmtCode
    exact writes_newCode hb target ty
  | .assign target (.expr e) => by
    unfold stmtCode
    exact writes_assignCode hb target e

theorem writes_stmtsCode {site : Site} (hb : site.scope.types.Bounded) (hn : ∀ f ∈ site.scope.functions, names f.name) :
    ∀ ss : List Stmt, Writes names (stmtsCode site ss)
  | [] => by
    unfold stmtsCode
    exact .pure _
  | s :: rest => by
    unfold stmtsCode
    have one : Writes names (stmtCode (site.saying s.text) s) := writes_stmtCode (by exact hb) (by exact hn) s
    exact one.bind fun _ => .bind (.registers _) fun _ => writes_stmtsCode hb hn rest

end

end

/-! ## Programs -/

/-- The parts of the code of a function. -/
theorem functionCode_eq_ok {scope : Scope} {self : Signature} {f : Function} {code : List Line}
    (h : functionCode scope self f = .ok code) :
    ∃ r, bodyCode { scope, self } f.body {} = .ok r ∧ code = .label self.name :: r.code := by
  unfold functionCode at h
  cases hr : bodyCode { scope, self } f.body {} with
  | error fault => rw [hr] at h; cases h
  | ok r =>
    rw [hr] at h
    cases h
    exact ⟨r, rfl, rfl⟩

theorem Scope.function_eq_ok {scope : Scope} {name : String} {f : Signature} (h : scope.function name = .ok f) :
    f ∈ scope.functions ∧ f.name = name := by
  unfold Scope.function at h
  split at h
  · next g hg =>
    cases h
    have := List.find?_some hg
    exact ⟨List.mem_of_find?_eq_some hg, by simpa using this⟩
  · cases h

/-- A piece of code is that of a function of a scope. -/
def IsCodeOf (scope : Scope) (f : Function) (piece : List Line) : Prop :=
  ∃ self, scope.function f.name = .ok self ∧ functionCode scope self f = .ok piece

/-- The code of some functions is one piece for each. -/
theorem functionsCode_eq_ok {scope : Scope} {fs : List Function} {code : List Line} (h : functionsCode scope fs = .ok code) :
    ∃ pieces, List.Forall₂ (IsCodeOf scope) fs pieces ∧ code = pieces.flatten := by
  induction fs generalizing code with
  | nil =>
    cases h
    exact ⟨[], .nil, rfl⟩
  | cons f fs ih =>
    rw [functionsCode] at h
    cases hs : scope.function f.name with
    | error e => rw [hs] at h; cases h
    | ok self =>
      cases hc : functionCode scope self f with
      | error e => rw [hs] at h; simp only [hc, Except.mapError, bind, Except.bind] at h; cases h
      | ok first =>
        cases hr : functionsCode scope fs with
        | error e => rw [hs] at h; simp only [hc, hr, Except.mapError, bind, Except.bind] at h; cases h
        | ok rest =>
          rw [hs] at h
          simp only [hc, hr, Except.mapError, bind, Except.bind] at h
          cases h
          obtain ⟨pieces, hp, rfl⟩ := ih hr
          exact ⟨first :: pieces, .cons ⟨self, hs, hc⟩ hp, rfl⟩

/-- The parts of the code of a program. -/
theorem programCode_eq_ok {scope : Scope} {p : Program} {code : List Line} (h : programCode scope p = .ok code) :
    ∃ pieces, List.Forall₂ (IsCodeOf scope) p.functions pieces ∧ code = startCode scope.map ++ pieces.flatten := by
  unfold programCode at h
  cases hf : functionsCode scope p.functions with
  | error e => rw [hf] at h; cases h
  | ok rest =>
    rw [hf] at h
    cases h
    obtain ⟨pieces, hp, rfl⟩ := functionsCode_eq_ok hf
    exact ⟨pieces, hp, rfl⟩

/-- The code of a function is a label with its name and lines that are no labels. -/
theorem written_functionCode {names : String → Prop} {scope : Scope} (hb : scope.types.Bounded)
    (hn : ∀ f ∈ scope.functions, names f.name) {f : Function} {piece : List Line} (h : IsCodeOf scope f piece) :
    ∃ rest, piece = .label f.name :: rest ∧ names f.name ∧ ∀ l ∈ rest, l.IsInner names := by
  obtain ⟨self, hs, hc⟩ := h
  obtain ⟨known, named⟩ := Scope.function_eq_ok hs
  obtain ⟨r, hr, rfl⟩ := functionCode_eq_ok hc
  have body : Writes names (bodyCode { scope, self } f.body) :=
    writes_prologueCode.bind fun _ => (writes_stmtsCode hb hn f.body).bind fun _ =>
      .ite (fun _ => .pure _) fun _ => writes_returnCode hb none
  exact ⟨r.code, by rw [named], named ▸ hn self known, body _ r hr⟩

theorem isWritten_of_isInner {labels names : String → Prop} {l : Line} (h : l.IsInner names) : l.IsWritten labels names :=
  h.mono (fun _ => False.elim) fun _ => id

theorem inner_startCode {names : String → Prop} (map : MemoryMap) (h : names entryName) :
    ∀ l ∈ startCode map, l.IsInner names := by
  have loads (r : Reg) (w : Word) : Line.IsInner names (.pseudo (.gpr r w .uint)) := ⟨fun h => (by cases h), rfl⟩
  simp only [startCode, List.forall_mem_cons, List.not_mem_nil, false_implies, implies_true, and_true]
  exact ⟨loads _ _, loads _ _, loads _ _, .inl rfl, h⟩

/-- The labels of some lines, in order. -/
def labelsOf (code : List Line) : List String := code.filterMap Line.label?

theorem labelsOf_append (a b : List Line) : labelsOf (a ++ b) = labelsOf a ++ labelsOf b := List.filterMap_append

theorem labelsOf_cons_label (name : String) (code : List Line) : labelsOf (.label name :: code) = name :: labelsOf code :=
  List.filterMap_cons_some rfl

theorem labelsOf_inner {names : String → Prop} {code : List Line} (h : ∀ l ∈ code, l.IsInner names) : labelsOf code = [] := by
  rw [labelsOf, List.filterMap_eq_nil_iff]
  intro l hl
  cases l with
  | label name => exact (h _ hl).elim
  | _ => rfl

/-- A program consists of lines that may be generated.  Its labels are the names of its functions, in order, and so are
    the names in its jumps. -/
theorem written_programCode {map : MemoryMap} {p : Program} {scope : Scope} (hs : Scope.ofProgram map p = .ok scope)
    {code : List Line} (h : programCode scope p = .ok code) :
    (∀ l ∈ code, l.IsWritten (· ∈ p.functions.map (·.name)) (· ∈ p.functions.map (·.name))) ∧
      labelsOf code = p.functions.map (·.name) := by
  obtain ⟨collected, entry⟩ := collected_of_ofProgram hs
  have main : entryName ∈ p.functions.map (·.name) := by
    have := Scope.function?_isSome_iff.1 entry
    rw [collected.names] at this
    exact this
  have known : ∀ f ∈ scope.functions, f.name ∈ p.functions.map (·.name) := by
    intro f hf
    have := List.mem_map_of_mem (f := fun f : Signature => f.name) hf
    rw [collected.names] at this
    exact this
  obtain ⟨pieces, hp, rfl⟩ := programCode_eq_ok h
  have start : ∀ l ∈ startCode scope.map, l.IsInner (· ∈ p.functions.map (·.name)) := inner_startCode scope.map main
  have functions : ∀ (fs : List Function) (ps : List (List Line)), List.Forall₂ (IsCodeOf scope) fs ps →
      (∀ l ∈ ps.flatten, l.IsWritten (· ∈ p.functions.map (·.name)) (· ∈ p.functions.map (·.name))) ∧
        labelsOf ps.flatten = fs.map (·.name) := by
    intro fs ps hfs
    induction hfs with
    | nil => exact ⟨fun l hl => absurd hl List.not_mem_nil, rfl⟩
    | cons hd _ ih =>
      obtain ⟨written, labels⟩ := ih
      obtain ⟨rest, rfl, named, inner⟩ := written_functionCode collected.bounded known hd
      refine ⟨?_, ?_⟩
      · rw [List.flatten_cons, List.cons_append]
        exact List.forall_mem_cons.2 ⟨named, List.forall_mem_append.2 ⟨fun l hl => isWritten_of_isInner (inner l hl), written⟩⟩
      · have none_inside := labelsOf_inner inner
        rw [List.flatten_cons, List.cons_append, labelsOf_cons_label, labelsOf_append, none_inside, List.nil_append,
          labels, List.map_cons]
  obtain ⟨written, labels⟩ := functions _ _ hp
  refine ⟨List.forall_mem_append.2 ⟨fun l hl => isWritten_of_isInner (start l hl), written⟩, ?_⟩
  rw [labelsOf_append, labelsOf_inner start, List.nil_append, labels]

end M32.Lang
