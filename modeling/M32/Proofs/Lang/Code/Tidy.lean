/-
  Statements give back the registers that they take.

  1. `Emit.Tidy` holds of a piece of code that retains the same registers at its end as at its start.  Pieces in a row are tidy
     if each of them is (`Tidy.bind`).
  2. An expression takes one register, for its value (`Ends.taken`).
  3. A condition comes into a register that was not retained, so giving it back after what it decides on changes no other
     (`ends_deciding`).
  4. So every statement is tidy, and every row of statements (`tidy_stmtCode`, `tidy_stmtsCode`).
-/
import M32.Proofs.Lang.Code.Compiles

namespace M32.Lang

/-! ## Pieces of code -/

/-- Whether a piece of code that starts from a sound pool ends in one, with the same registers retained. -/
def Emit.Tidy {α : Type} (x : Emit α) : Prop := ∀ p : RegPool, p.Sound → x.Ends p fun _ q => q.Sound ∧ q.retained = p.retained

namespace Emit

variable {α β : Type} {p : RegPool}

theorem Ends.capture {x : Emit α} {post : α × List Line → RegPool → Prop} (h : x.Ends p fun a q => ∀ code, post (a, code) q) :
    (Emit.capture x).Ends p post := by
  intro r hr
  obtain ⟨a, ha, rfl⟩ := (capture_eq_ok_iff x r).1 hr
  exact h a ha a.code

theorem Ends.captureRetaining {c : Reg} {x : Emit Unit} {post : List Line → RegPool → Prop}
    (h : x.Ends (p.retain c) fun _ q => ∀ code, post code (q.unretain c)) : (Emit.captureRetaining c x).Ends p post := by
  intro r hr
  obtain ⟨a, ha, rfl⟩ := (captureRetaining_eq_ok_iff c x r).1 hr
  exact h a ha a.code

namespace Tidy

theorem pure (a : α) : (Pure.pure a : Emit α).Tidy := fun _ hp => .pure ⟨hp, rfl⟩

theorem fail (fault : Fault) : (Emit.fail fault : Emit α).Tidy := fun _ _ => .fail

theorem bind {x : Emit β} {f : β → Emit α} (hx : x.Tidy) (hf : ∀ b, (f b).Tidy) : (x >>= f).Tidy := by
  intro p hp
  refine .seq fun b hb => ?_
  obtain ⟨sound, kept⟩ := hx p hp b hb
  refine (hf b.value b.pool sound).mono ?_
  rintro _ _ ⟨sound', kept'⟩
  exact ⟨sound', kept'.trans kept⟩

theorem ofExcept (e : Except Fault α) : (Emit.ofExcept e).Tidy := fun _ hp => .ofExcept fun _ _ => ⟨hp, rfl⟩

theorem ite {c : Prop} [Decidable c] {x y : Emit α} (hx : x.Tidy) (hy : y.Tidy) : (if c then x else y).Tidy := by
  split
  · exact hx
  · exact hy

theorem lines (code : List Line) : (Emit.lines code).Tidy := fun _ hp => .lines ⟨hp, rfl⟩

theorem instr (i : Instr) : (Emit.instr i).Tidy := lines [.instr i]

theorem pseudo (ps : Pseudo) : (Emit.pseudo ps).Tidy := fun _ hp => .pseudo ⟨hp, rfl⟩

theorem acquire (fragment : String) : (Emit.acquire fragment).Tidy := fun _ hp =>
  .acquire fun _ _ taken => ⟨taken.sound hp, by rw [taken.pool]; rfl⟩

theorem release (r : Reg) : (Emit.release r).Tidy := by
  intro p hp
  refine .registers ⟨hp.release r, ?_⟩
  rw [RegPool.release]
  split
  · rfl
  · rfl

theorem occupy (rs : List Reg) : (Emit.occupy rs).Tidy := by
  induction rs with
  | nil => exact .pure _
  | cons r rs ih =>
    have first : Tidy fun p => .ok ⟨(p.occupy r).1, [], (p.occupy r).2⟩ := by
      rintro p hp _ ⟨⟩
      exact ⟨hp.setUsed r, rfl⟩
    exact first.bind fun _ => ih.bind fun _ => .pure _

theorem forM {f : α → Emit PUnit} (hf : ∀ a, (f a).Tidy) (as : List α) : (as.forM f).Tidy := by
  induction as with
  | nil => exact .pure _
  | cons a as ih => exact (hf a).bind fun _ => ih

end Tidy

end Emit

/-! ## Simple statements -/

section

variable {site : Site}

/-- Code that takes no register but the lowest for its value is tidy. -/
theorem Emit.Ends.taken {α : Type} {x : Emit α} {p : RegPool} {reg : α → Reg} {post : α → Prop} (hp : p.Sound)
    (h : x.Ends p fun v q => p.acquire? = some (reg v, q) ∧ post v) : x.Ends p fun _ q => q.Sound ∧ q.retained = p.retained := by
  refine h.mono ?_
  rintro v q ⟨hq, -⟩
  have taken := RegPool.Takes.of_acquire? hq
  exact ⟨taken.sound hp, by rw [taken.pool]; rfl⟩

theorem tidy_exprCode (e : Expr) : (exprCode site e).Tidy := fun _ hp => (exact_exprCode e hp).ends.taken hp

theorem tidy_placeCode (place : Place) : (placeCode site place).Tidy := fun _ hp => (exact_placeCode place hp).ends.taken hp

theorem tidy_offsetCode (dst base : Reg) (offset : Int) : (offsetCode dst base offset).Tidy :=
  .ite (.instr _) (.bind (.pseudo _) fun _ => .instr _)

theorem tidy_bumpCode (r : Reg) (delta : Int) : (bumpCode r delta).Tidy :=
  .ite (.instr _) (.bind (.pseudo _) fun _ => .instr _)

theorem tidy_storeCode (source base : Reg) (offset : Int) : (storeCode source base offset).Tidy :=
  .ite (.instr _) (.bind (tidy_offsetCode _ _ _) fun _ => .instr _)

theorem tidy_stackCheckCode (map : MemoryMap) : (stackCheckCode map).Tidy :=
  .bind (.pseudo _) fun _ => .bind (.instr _) fun _ => .lines _

theorem tidy_heapCheckCode (map : MemoryMap) : (heapCheckCode map).Tidy :=
  .bind (.pseudo _) fun _ => .bind (.instr _) fun _ => .lines _

theorem tidy_exitCode (value : Option Expr) : (exitCode site value).Tidy := by
  rcases value with _ | e
  · exact .bind (.instr _) fun _ => .instr _
  · exact .bind (tidy_exprCode e) fun _ => .bind (.instr _) fun _ => .instr _

theorem tidy_resultCode (e : Expr) : (resultCode site e).Tidy := by
  rw [resultCode]
  split
  · exact .fail _
  · exact .bind (tidy_exprCode e) fun _ => .bind (.ofExcept _) fun _ => .bind (.acquire _) fun _ => .lines _

theorem tidy_returnCode (value : Option Expr) : (returnCode site value).Tidy := by
  rw [returnCode]
  split
  · exact tidy_exitCode value
  · rcases value with _ | e
    · exact .bind (.instr _) fun _ => .bind (tidy_bumpCode _ _) fun _ => .instr _
    · exact .bind (tidy_resultCode e) fun _ => .bind (.instr _) fun _ => .bind (tidy_bumpCode _ _) fun _ => .instr _

theorem tidy_assignCode (target : Place) (e : Expr) : (assignCode site target e).Tidy :=
  .bind (tidy_exprCode e) fun _ => .bind (tidy_placeCode target) fun _ => .bind (.ofExcept _) fun _ => .instr _

theorem tidy_newCode (target : Place) (ty : Ty) : (newCode site target ty).Tidy :=
  .bind (.ofExcept _) fun _ => .bind (tidy_placeCode target) fun _ => .bind (.ofExcept _) fun _ =>
    .bind (.instr _) fun _ => .bind (tidy_bumpCode _ _) fun _ => tidy_heapCheckCode _

theorem tidy_wordPlaceCode (place : Place) : (wordPlaceCode site place).Tidy :=
  .bind (tidy_placeCode place) fun _ => .ite (.fail _) (.pure _)

/-- The registers that were marked as used for a statement are given back. -/
theorem tidy_sparingCode (n : Nat) (spared : List Nat) {code : Reg → Emit Unit} (h : ∀ reg, (code reg).Tidy) :
    (sparingCode site n spared code).Tidy :=
  .bind (.ofExcept _) fun reg => .bind (.ofExcept _) fun _ => .bind (.occupy _) fun taken => .bind (h reg) fun _ =>
    .forM .release taken

theorem tidy_toGprCode (n : Nat) (source : Place) (spared : List Nat) : (toGprCode site n source spared).Tidy :=
  tidy_sparingCode n spared fun _ => .bind (tidy_wordPlaceCode source) fun _ => .lines _

theorem tidy_fromGprCode (target : Place) (n : Nat) (spared : List Nat) : (fromGprCode site target n spared).Tidy :=
  tidy_sparingCode n spared fun _ => .bind (tidy_wordPlaceCode target) fun _ => .instr _

theorem tidy_destinationCode (callee : Signature) (target : Option Place) : (destinationCode site callee target).Tidy := by
  unfold destinationCode
  split
  · exact .pure _
  · exact .fail _
  · exact .bind (tidy_placeCode _) fun _ => .bind (.ofExcept _) fun _ => .pure _

theorem tidy_argsCode (es : List Expr) (params : List Var) : (argsCode site es params).Tidy := by
  induction es generalizing params with
  | nil => exact .pure _
  | cons e es ih =>
    rcases params with _ | ⟨param, params⟩
    · exact .pure _
    · exact .bind (tidy_exprCode e) fun _ => .bind (.ofExcept _) fun _ => .bind (ih params) fun _ => .pure _

theorem tidy_callCode (c : Call) (target : Option Place) : (callCode site c target).Tidy := by
  refine .bind (.ofExcept _) fun callee => .ite (.fail _) (.bind (tidy_destinationCode callee target) fun _ => .ite (.fail _) ?_)
  refine .bind (tidy_argsCode _ _) fun args => .bind (tidy_bumpCode _ _) fun _ => .bind (tidy_stackCheckCode _) fun _ => ?_
  exact .bind (.instr _) fun _ => .bind (.forM (fun _ => tidy_storeCode _ _ _) args) fun _ => .lines _

end

/-! ## Loops and branches -/

section

variable {site : Site} {p q : RegPool} {c : Reg} {body other : Emit Unit}

/-- A condition comes into the lowest register that is left. -/
theorem ends_condCode (hp : p.Sound) (cond : Expr) : (condCode site cond).Ends p fun c q => p.acquire? = some (c, q) := by
  refine .seq ((exact_exprCode cond hp).ends.mono ?_)
  rintro x q ⟨hq, -⟩
  exact .seq (.ofExcept fun _ _ => .pure hq)

/-- The statements that a condition decides on retain its register, and no other besides. -/
theorem ends_deciding (hp : p.Sound) (hq : p.acquire? = some (c, q)) (h : body.Tidy) :
    (Emit.captureRetaining c body).Ends q fun _ q' => q'.Sound ∧ q'.retained = p.retained := by
  have taken := RegPool.Takes.of_acquire? hq
  refine .captureRetaining ((h _ ((taken.sound hp).retain c)).mono ?_)
  rintro _ b ⟨sound, kept⟩ _
  refine ⟨sound.unretain c, ?_⟩
  show b.retained.set c.num.val false c.num_lt = p.retained
  rw [kept, taken.pool]
  exact RegPool.set_back (hp.not_retained taken.unused)

theorem tidy_whileCode (cond : Expr) (h : body.Tidy) : (whileCode site cond body).Tidy := by
  intro p hp
  refine .seq (.capture ((ends_condCode hp cond).mono fun c q hq test => ?_))
  refine .seq ((ends_deciding hp hq h).mono fun inside q' tidy => ?_)
  exact .seq (.ofExcept fun out _ => .seq (.ofExcept fun back _ => .lines tidy))

theorem tidy_ifThenCode (cond : Expr) (h : body.Tidy) : (ifThenCode site cond body).Tidy := by
  intro p hp
  refine .seq (.capture ((ends_condCode hp cond).mono fun c q hq test => ?_))
  refine .seq ((ends_deciding hp hq h).mono fun inside q' tidy => ?_)
  exact .seq (.ofExcept fun past _ => .lines tidy)

theorem tidy_ifElseCode (cond : Expr) (h : body.Tidy) (h' : other.Tidy) : (ifElseCode site cond body other).Tidy := by
  intro p hp
  refine .seq (.capture ((ends_condCode hp cond).mono fun c q hq test => ?_))
  refine .seq ((ends_deciding hp hq h).mono fun inside q' tidy => ?_)
  refine .seq (.capture ((h' q' tidy.1).mono fun _ q'' tidy' otherwise => ?_))
  exact .seq (.ofExcept fun past _ => .seq (.ofExcept fun around _ => .lines ⟨tidy'.1, tidy'.2.trans tidy.2⟩))

end

/-! ## Statements -/

mutual

theorem tidy_stmtCode : ∀ (site : Site) (s : Stmt), (stmtCode site s).Tidy
  | site, .while cond body => by
    unfold stmtCode
    exact tidy_whileCode cond (tidy_stmtsCode site body)
  | site, .ifThen cond body => by
    unfold stmtCode
    exact tidy_ifThenCode cond (tidy_stmtsCode site body)
  | site, .ifElse cond body other => by
    unfold stmtCode
    exact tidy_ifElseCode cond (tidy_stmtsCode site body) (tidy_stmtsCode site other)
  | site, .return value => by
    unfold stmtCode
    exact tidy_returnCode value
  | site, .toGpr reg source spared => by
    unfold stmtCode
    exact tidy_toGprCode reg source spared
  | site, .fromGpr target reg spared => by
    unfold stmtCode
    exact tidy_fromGprCode target reg spared
  | site, .call c => by
    unfold stmtCode
    exact tidy_callCode c none
  | site, .assign target (.call c) => by
    unfold stmtCode
    exact tidy_callCode c (some target)
  | site, .assign target (.new ty) => by
    unfold stmtCode
    exact tidy_newCode target ty
  | site, .assign target (.expr e) => by
    unfold stmtCode
    exact tidy_assignCode target e

theorem tidy_stmtsCode : ∀ (site : Site) (stmts : List Stmt), (stmtsCode site stmts).Tidy
  | site, [] => by
    unfold stmtsCode
    exact .pure ()
  | site, s :: rest => by
    have ended : (Emit.registers RegPool.endStatement).Tidy := fun p _ => .registers ⟨p.sound_endStatement, rfl⟩
    unfold stmtsCode
    exact (tidy_stmtCode (site.saying s.text) s).bind fun _ => ended.bind fun _ => tidy_stmtsCode site rest

end

end M32.Lang
