/-
  What is delivered by the code of an expression.

  1. Where there is code for an expression, a machine finds something for it, of the type that the code has, and the code leaves
     one register more in use (`ends_exprCode`, `ends_placeCode`).
  2. `Delivers` is what can be relied on: wherever the code is placed, it brings what is found into that register, and memory,
     the special registers and the registers that were in use are as they were, unless the code sets `k0` to `k3`.
  3. `values_delivered`: so it is for every expression and every place.  `k0` to `k3` are never handed out, but statements can
     mark them as used, and code for distances that are too long for an instruction goes through `k1` all the same.
-/
import M32.Proofs.Lang.Code.Values
import M32.Proofs.Lang.Scope.Collected

namespace M32.Lang

open Machine

variable {site : Site} {p q q' : RegPool} {s : State} {x : Value} {f : Found}

/-! ## Types and registers -/

theorem ends_literalCode (sc : Scalar) (w : Word) :
    (literalCode site sc w).Ends p fun x q => p.Takes x.reg q ∧ x.ty = .scalar sc :=
  .seq (.acquire fun _ _ taken => .seq (.pseudo (.pure ⟨taken, rfl⟩)))

theorem ends_offsetCode (dst base : Reg) (offset : Int) : (offsetCode dst base offset).Ends p fun _ q => q = p :=
  .ite (fun _ => .instr rfl) fun _ => .seq (.pseudo (.instr rfl))

theorem ends_varCode (name : String) : (varCode site name).Ends p fun x q => p.Takes x.reg q ∧
    ∃ f, site.named? (.of s) name = some f ∧ f.ty = x.ty := by
  refine .seq (.ofExcept fun (base, offset, ty) located => .seq (.acquire fun r q taken => ?_))
  obtain ⟨-, named⟩ := locate_eq (s := s) located
  refine .seq (.mono (ends_offsetCode r base offset) ?_)
  rintro _ _ rfl
  exact .pure ⟨taken, _, named, rfl⟩

theorem ends_elementsCode (ht : f.ty = x.ty) : (elementsCode site x).Ends p fun elem q => q = p ∧
    ∃ first, f.elements? (.of s) = some first ∧ first.ty = elem := by
  rw [elementsCode, Found.elements?, ht]
  cases x.ty with
  | array elem length => exact .pure ⟨rfl, _, rfl, rfl⟩
  | pointer target => exact .seq (.instr (.pure ⟨rfl, _, rfl, rfl⟩))
  | scalar sc => exact .fail
  | struct name => exact .fail

theorem ends_derefCode (ht : f.ty = x.ty) : (derefCode site x).Ends p fun y q => (q = p ∧ y.reg = x.reg) ∧
    ∃ g, f.target? (.of s) = some g ∧ g.ty = y.ty := by
  rw [derefCode, Found.target?, ht]
  cases x.ty with
  | pointer target => exact .seq (.instr (.pure ⟨⟨rfl, rfl⟩, _, rfl, rfl⟩))
  | array elem length => exact .fail
  | scalar sc => exact .fail
  | struct name => exact .fail

theorem ends_fieldCode (ht : f.ty = x.ty) (name : String) : (fieldCode site x name).Ends p fun y q => (q = p ∧ y.reg = x.reg) ∧
    ∃ g, f.field? site name = some g ∧ g.ty = y.ty := by
  rw [fieldCode]
  cases hx : x.ty with
  | struct owner =>
    refine .seq (.ofExcept fun field hf => ?_)
    have found := Found.field?_of_ok (ht.trans hx) hf
    refine .ite (fun _ => .seq (.mono (ends_offsetCode x.reg x.reg field.offset) ?_)) fun _ => ?_
    · rintro _ _ rfl
      exact .pure ⟨⟨rfl, rfl⟩, _, found, rfl⟩
    · exact .seq (.pure (.pure ⟨⟨rfl, rfl⟩, _, found, rfl⟩))
  | array elem length => exact .fail
  | scalar sc => exact .fail
  | pointer target => exact .fail

/-- The register of a factor that is no power of two is given back. -/
theorem ends_scaleCode (hp : p.Sound) (i : Reg) (size : Nat) : (scaleCode site i size).Ends p fun _ q => q = p := by
  refine .ite (fun _ => .ite (fun _ => .pure rfl) fun _ => .instr rfl) fun _ => ?_
  refine .seq (.acquire fun r q taken => .seq (.pseudo (.seq (.pseudo (.registers ?_)))))
  rw [taken.pool, RegPool.release_acquired hp taken.unused]

theorem ends_indexCode {address : Reg} {i : Value} (hp : p.Sound) (h : p.Takes address q) (g : q.Takes i.reg q') (j : Found) :
    (indexCode site address f.ty i).Ends q' fun y q'' => p.Takes y.reg q'' ∧
      ∃ found, f.element? site j = some found ∧ found.ty = y.ty := by
  refine .ite (fun _ => .fail) fun _ => .seq (.ofExcept fun size hn => ?_)
  refine .seq (.mono (ends_scaleCode (g.sound (h.sound hp)) i.reg size) ?_)
  rintro _ _ rfl
  exact .seq (.instr (.seq (.registers (.pure ⟨h.release hp g, _, Found.element?_of_ok hn, rfl⟩))))

theorem ends_loadCode : (loadCode site x).Ends p fun y q => q = p ∧ y = x :=
  .ite (fun _ => .fail) fun _ => .seq (.instr (.pure ⟨rfl, rfl⟩))

theorem ends_unaryCode (op : UnaryOp) : (unaryCode site op x).Ends p fun y q => q = p ∧ y = x := by
  cases op with
  | not => exact .seq (.ofExcept fun _ _ => .seq (.lines (.pure ⟨rfl, rfl⟩)))
  | neg => exact .seq (.ofExcept fun _ _ => .seq (.instr (.pure ⟨rfl, rfl⟩)))

theorem ends_applyCode (op : BinaryOp) (ty : Ty) (a b : Reg) : (applyCode op ty a b).Ends p fun _ q => q = p := by
  cases op with
  | mul | div => exact .pseudo rfl
  | _ => exact .lines rfl

theorem ends_binaryCode {l r : Value} (op : BinaryOp) (hp : p.Sound) (h : p.Takes l.reg q) (g : q.Takes r.reg q') :
    (binaryCode site op l r).Ends q' fun y q'' => p.Takes y.reg q'' ∧ y.ty = op.resultTy l.ty := by
  refine .seq (.ofExcept fun _ _ => .ite (fun _ => .fail) fun _ => .seq (.mono (ends_applyCode op l.ty l.reg r.reg) ?_))
  rintro _ _ rfl
  exact .seq (.registers (.pure ⟨h.release hp g, rfl⟩))

mutual

/-- Code for an expression leaves one register more in use, and a machine finds something of its type. -/
theorem ends_exprCode : ∀ (e : Expr) {p : RegPool}, p.Sound → (exprCode site e).Ends p fun x q => p.Takes x.reg q ∧
    ∃ f, e.found site (.of s) = some f ∧ f.ty = x.ty
  | .number value isUnsigned, p, hp => by
    unfold exprCode Expr.found
    exact .seq (.ofExcept fun w _ => .mono (ends_literalCode _ w) fun x q ⟨taken, ty⟩ => ⟨taken, _, rfl, ty.symm⟩)
  | .bool value, p, hp => by
    unfold exprCode Expr.found
    exact .mono (ends_literalCode _ _) fun x q ⟨taken, ty⟩ => ⟨taken, _, rfl, ty.symm⟩
  | .char value, p, hp => by
    unfold exprCode Expr.found
    exact .mono (ends_literalCode _ _) fun x q ⟨taken, ty⟩ => ⟨taken, _, rfl, ty.symm⟩
  | .place place, p, hp => by
    unfold exprCode Expr.found
    refine .seq (.mono (ends_placeCode place hp) fun x q ⟨taken, f, hf, ty⟩ => .mono ends_loadCode ?_)
    rintro y _ ⟨rfl, rfl⟩
    rw [hf]
    exact ⟨taken, _, rfl, ty⟩
  | .unary op operand, p, hp => by
    unfold exprCode Expr.found
    refine .seq (.mono (ends_exprCode operand hp) fun x q ⟨taken, f, hf, ty⟩ => .mono (ends_unaryCode op) ?_)
    rintro y _ ⟨rfl, rfl⟩
    rw [hf]
    exact ⟨taken, _, rfl, ty⟩
  | .binary op left right, p, hp => by
    unfold exprCode Expr.found
    refine .seq (.mono (ends_exprCode left hp) fun l q ⟨takenL, f, hf, ty⟩ => ?_)
    refine .seq (.mono (ends_exprCode right (takenL.sound hp)) fun r q' ⟨takenR, g, hg, _⟩ => ?_)
    refine .mono (ends_binaryCode op hp takenL takenR) fun y q'' ⟨taken, same⟩ => ⟨taken, ?_⟩
    rw [hf, hg]
    exact ⟨_, rfl, by rw [same, ← ty]⟩

/-- Code for a place leaves one register more in use, and a machine finds something of its type. -/
theorem ends_placeCode : ∀ (place : Place) {p : RegPool}, p.Sound → (placeCode site place).Ends p fun x q => p.Takes x.reg q ∧
    ∃ f, place.found site (.of s) = some f ∧ f.ty = x.ty
  | .var name, p, hp => by
    unfold placeCode Place.found
    exact ends_varCode name
  | .index base i, p, hp => by
    unfold placeCode Place.found
    refine .seq (.mono (ends_placeCode base hp) fun x q ⟨taken, f, hf, ty⟩ => .seq (.mono (ends_elementsCode (s := s) ty) ?_))
    rintro elem _ ⟨rfl, first, hn, rfl⟩
    refine .seq (.mono (ends_exprCode i (taken.sound hp)) fun y q' ⟨takenI, j, hj, _⟩ => ?_)
    simp only [hf, hn, hj, Option.bind_eq_bind, Option.bind_some]
    exact ends_indexCode hp taken takenI j
  | .field base name, p, hp => by
    unfold placeCode Place.found
    refine .seq (.mono (ends_placeCode base hp) fun x q ⟨taken, f, hf, ty⟩ => .mono (ends_fieldCode ty name) ?_)
    rintro y _ ⟨⟨rfl, same⟩, found⟩
    rw [hf, same]
    exact ⟨taken, found⟩
  | .deref base, p, hp => by
    unfold placeCode Place.found
    refine .seq (.mono (ends_placeCode base hp) fun x q ⟨taken, f, hf, ty⟩ => .mono (ends_derefCode (s := s) ty) ?_)
    rintro y _ ⟨⟨rfl, same⟩, found⟩
    rw [hf, same]
    exact ⟨taken, found⟩

end

/-! ## Delivery -/

/-- What a piece of code with a value does, given what machines find and the registers in use before it. -/
structure Delivers (found : View → Option Found) (p : RegPool) (r : Emitted Value) : Prop
    extends RegPool.Takes p r.value.reg r.pool where
  /-- Every machine finds something of the type of the value. -/
  typed : ∀ s, ∃ f, found (.of s) = some f ∧ f.ty = r.value.ty
  /-- A machine at the first instruction that can access all that it loads from comes to the instruction after the last one,
      with what it finds in the register of the value.  Registers that were in use, and those that are never handed out, are as
      they were, unless they are among `k0` to `k3` and the code sets them. -/
  works : ∀ (index : String → Nat) (base : Nat) (s : State) (f : Found), Inside (instrsOf index r.code) base 0 s →
    found (.of s) = some f → (∀ a ∈ f.loads, CanAccess s a) →
    ∃ t, Works (instrsOf index r.code) base s (instrsOf index r.code).length t ∧ t.reg r.value.reg = f.word ∧
      ∀ x : Reg, (p.isUsed x = true ∨ x ∉ RegPool.lent) → (x.isScratch = true → ¬ Sets (instrsOf index r.code) x) →
        t.reg x = s.reg x

/-- Code that gives what is found delivers it. -/
theorem Delivers.of_arrives {code : Emit Value} {found : View → Option Found} {r : Emitted Value} (hr : code p = .ok r)
    (ends : ∀ s, code.Ends p fun x q => p.Takes x.reg q ∧ ∃ f, found (.of s) = some f ∧ f.ty = x.ty)
    (arrives : ∀ (m : Linked) (base : Nat) (s : State) (f : Found), found (.of s) = some f → (∀ a ∈ f.loads, CanAccess s a) →
      code.Arrives m base p s (Gives p s f.ty f.word)) : Delivers found p r where
  -- any machine will do, as the registers in use do not depend on it
  toTakes := (ends (.ofSize 0) r hr).1
  typed s := (ends s r hr).2
  works := by
    intro index base s f inside hf access
    obtain ⟨t, works, given⟩ := arrives ⟨instrsOf index r.code, index⟩ base s f hf access r 0 hr inside (.self _)
    rw [Nat.zero_add, ← length_instrsOf index] at works
    refine ⟨t, works, given.word, ?_⟩
    intro x known free
    cases scratch : x.isScratch with
    | true => exact works.kept x (free scratch)
    | false =>
      refine given.keeps.regs x ⟨scratch, ?_⟩
      intro lent
      exact known.resolve_right (not_not_intro lent)

/-- In every context, for every function and all registers in use: the code of an expression delivers the value of the
    expression, and the code of a place its address. -/
theorem values_delivered {map : MemoryMap} {program : Program} (context : Scope.ofProgram map program = .ok site.scope)
    (made : p.Made) :
    (∀ (e : Expr) (r : Emitted Value), exprCode site e p = .ok r → Delivers (e.found site) p r) ∧
      ∀ (place : Place) (r : Emitted Value), placeCode site place p = .ok r → Delivers (place.found site) p r := by
  obtain ⟨collected, -⟩ := collected_of_ofProgram context
  constructor
  · intro e r hr
    refine .of_arrives hr (fun s => ends_exprCode e made.sound) ?_
    intro m base s f hf access
    exact arrives_exprCode collected.bounded e made.sound hf access fun v q t given => given
  · intro place r hr
    refine .of_arrives hr (fun s => ends_placeCode place made.sound) ?_
    intro m base s f hf access
    exact arrives_placeCode collected.bounded place made.sound hf access fun v q t given => given

/-- A program with a variable behind many others. -/
def farProgram : Program :=
  ⟨[.global ⟨.array (.scalar .int) 8192, "pad"⟩, .global ⟨.scalar .int, "x"⟩, .function ⟨"main", none, [], [], []⟩]⟩

/-- The instructions for the value of that variable: it comes into register 1, which is `sig`. -/
def farCode : List Instr := [.lui .k1 0, .ori .k1 .k1 0x8000, .addu .sig .bp .k1, .lw .sig .sig 0]

/-- The value of a variable that is far from the start of the globals comes into register 1.  The way there is through
    `k1`, which loses what it held, although it is in use. -/
theorem values_delivered_far :
    ∃ (site : Site) (p : RegPool) (r : Emitted Value) (s t u : State), Scope.ofProgram {} farProgram = .ok site.scope ∧ p.Made ∧
      p.isUsed .k1 = true ∧ exprCode site (.place (.var "x")) p = .ok r ∧
      instrsOf (fun _ => 0) r.code = farCode ∧ Inside farCode 5 0 s ∧ s.reg .bp = 0x10000 ∧ s.reg .k1 = 7 ∧
      Works farCode 5 s 4 t ∧ t.reg .sig = s.memory.read 0x18000 ∧ t.reg .bp = 0x10000 ∧
      Works farCode 5 s 4 u ∧ u.reg .k1 = 0x8000 := by
  let main : Signature := ⟨"main", none, {}, 0⟩
  let p : RegPool := (({} : RegPool).occupy .k1).2
  have computed : (Scope.ofProgram {} farProgram).toOption.any (fun scope =>
      (scope.global? "x").any (fun x => decide (x.offset = 0x8000)) &&
        (exprCode ⟨scope, main, ""⟩ (.place (.var "x")) p).toOption.any fun r => decide (r.value.reg = .sig) &&
          decide (instrsOf (fun _ => 0) r.code = farCode)) = true := by
    decide +kernel
  cases hs : Scope.ofProgram {} farProgram with
  | error e => rw [hs] at computed; cases computed
  | ok scope =>
    rw [hs] at computed
    simp only [Except.toOption, Option.any_some, Bool.and_eq_true, Option.any_eq_true, decide_eq_true_eq] at computed
    obtain ⟨⟨x, hx, far⟩, r, hr, first, instrs⟩ := computed
    let site : Site := ⟨scope, main, ""⟩
    have context : Scope.ofProgram {} farProgram = .ok site.scope := hs
    have hr : exprCode site (.place (.var "x")) p = .ok r := by
      cases h : exprCode site (.place (.var "x")) p with
      | error e => rw [h] at hr; cases hr
      | ok r' => rw [h] at hr; cases hr; rfl
    let regs : Reg → Word := fun q => if q = .bp then 0x10000 else if q = .k1 then 7 else 0
    have room : 4 * (5 + farCode.length) ≤ 0x20000 := by decide
    obtain ⟨s, inside, contents, size⟩ := exists_inside farCode (by decide) 5 regs rfl room (by decide)
    have bp : s.reg .bp = 0x10000 := by rw [contents]; rfl
    have named : site.named? (.of s) "x" = some ⟨x.ty, 0x18000, []⟩ := by
      unfold Site.named?
      rw [show site.self.frame.find? "x" = none from rfl, show site.scope.global? "x" = some x from hx]
      show some (Found.mk x.ty (s.reg .bp + UInt32.ofNat x.offset) []) = _
      rw [bp, far]
      rfl
    have found : (Expr.place (.var "x")).found site (.of s) = some ⟨x.ty, s.memory.read 0x18000, [0x18000]⟩ := by
      unfold Expr.found Place.found
      rw [named]
      rfl
    have access : ∀ a ∈ ([0x18000] : List Word), CanAccess s a := by
      intro a ha
      rw [List.eq_of_mem_singleton ha, CanAccess, size]
      decide
    -- the run of which the theorem tells
    have delivers := (values_delivered context (.occupy .empty .k1)).1 (.place (.var "x")) r hr
    obtain ⟨t, works, value, kept⟩ := delivers.works (fun _ => 0) 5 s _ (by rw [instrs]; exact inside) found access
    -- the run that shows what becomes of `k1`
    obtain ⟨m, before, regs_m⟩ := works_straight (c := [.lui .k1 0, .ori .k1 .k1 0x8000, .addu .sig .bp .k1]) inside
      ((Lies.self farCode).part 0 ⟨_, rfl⟩) rfl
    have address : m.reg .sig + Word.ofImm 0 = 0x18000 := by
      rw [regs_m, contents]
      decide +kernel
    obtain ⟨u, last, regs_u⟩ := works_load before.inside rfl (by
      rw [address, CanAccess, before.memory, size]
      decide)
    rw [first] at value
    rw [instrs] at works
    refine ⟨site, p, r, s, t, u, rfl, .occupy .empty .k1, by decide, hr, instrs, inside, bp, ?_, works, value, ?_,
      before.trans last, ?_⟩
    · rw [contents]
      rfl
    · rw [kept .bp (.inr (by decide)) fun scratch => absurd scratch (by decide), bp]
    · rw [regs_u, setReg_of_ne (by decide), regs_m, contents]
      decide +kernel

end M32.Lang
