/-
  Functions that are called.

  1. `Called` is how a caller leaves the machine to a function: all is in place but the return address and the locals.
  2. `leads_prologueCode` puts them in place.  Nothing above the frame changes (`Above`).  Code that clears the locals is
     code that clears a block (`leads_clearCode`).
  3. `leads_bodyCode`: code for the body of a function never comes to its end.  It leaves the function as the body does, and
     a body that comes to its end goes back without a result.
-/
import M32.Proofs.Lang.Run.Arguments

namespace M32.Lang

open Machine

variable {m : Linked} {d : Activation} {ret fuel : Nat} {st : Store} {s t u : State} {p : RegPool} {site : Site}

/-! ## Machines at the start of a function -/

/-- The locals of a function that was called. -/
def Activation.locals (d : Activation) : Block :=
  ⟨d.start.toNat + 4 * d.self.arity, d.self.frame.size - 4 * d.self.arity⟩

/-- Whether a machine is at the start of a function. -/
structure Called (d : Activation) (ret : Nat) (st : Store) (s : State) : Prop where
  sp : s.reg .sp = d.sp
  bp : s.reg .bp = d.scope.map.globalBase
  hp : s.reg .hp = st.next
  ra : s.reg .ra = addressOf ret
  result : s.memory.read d.sp = d.result?.getD 0
  word : ∀ a, d.reaches st a = true → d.locals.holds a = false → s.memory.read a = st.word a
  zero : ∀ a, d.locals.holds a = true → st.word a = 0
  aligned : st.next.toNat % 4 = 0
  low : d.scope.map.heapBase.toNat ≤ st.next.toNat
  high : st.next.toNat ≤ d.scope.map.heapLimit.toNat
  fresh : ∀ a : Word, a.toNat % 4 = 0 → st.next.toNat ≤ a.toNat → a.toNat + 4 ≤ d.scope.map.heapLimit.toNat →
    s.memory.read a = 0
  size : d.scope.map.stackTop.toNat ≤ s.memory.size

/-- Whether words above the frame of a function are as they were. -/
def Above (d : Activation) (s t : State) : Prop := ∀ a : Word, a.toNat % 4 = 0 → d.frame.start + d.frame.size ≤ a.toNat →
  t.memory.read a = s.memory.read a

/-- The locals lie at the end of the frame. -/
theorem Activation.locals_holds {a : Word} (h : d.locals.holds a = true) :
    d.start.toNat ≤ a.toNat ∧ a.toNat + 4 ≤ d.frame.start + d.frame.size := by
  obtain ⟨first, last⟩ := Block.holds_iff.1 h
  simp only [Activation.locals, Activation.frame] at first last ⊢
  omega

/-- The return address and zeros in the locals make a machine at the start of a function one that carries it out. -/
theorem Called.matches (h : Called d ret st s) (placed : d.Placed) (fits : m.Fits d.scope) (inner : d.self.isEntry = false)
    (size : t.memory.size = s.memory.size) (regs : ∀ r ∈ [Reg.sp, .bp, .hp], t.reg r = s.reg r)
    (memory : ∀ a : Word, a.toNat % 4 = 0 → t.memory.read a =
      if d.locals.holds a then 0 else if a = d.sp + 4 then addressOf ret else s.memory.read a) :
    Matches d st t ∧ Links d ret t ∧ Above d s t := by
  obtain ⟨next, -, -⟩ := placed.linkArea inner
  obtain ⟨-, limit, stack, -⟩ := fits.ordered
  have aligned := placed.aligned
  have low := placed.low
  have high := h.high
  have start : d.start.toNat = d.sp.toNat + 8 := by
    rw [placed.start, inner]; rfl
  have links {a : Word} (below : a.toNat < d.start.toNat) : d.locals.holds a = false :=
    Bool.eq_false_iff.2 fun holds => by
      obtain ⟨first, -⟩ := Activation.locals_holds holds
      omega
  have apart {a : Word} (ha : a.toNat + 4 ≤ d.scope.map.heapLimit.toNat ∨ d.start.toNat ≤ a.toNat) : a ≠ d.sp + 4 := by
    rintro rfl
    omega
  refine ⟨⟨⟨fun a ha => ?_, h.aligned, h.low, high, fun a ha first last => ?_, ?_⟩, ?_, ?_, ?_⟩, ⟨?_, ?_⟩, fun a ha above => ?_⟩
  · obtain ⟨alignedA, region⟩ := placed.region fits h.low ha
    rw [memory a alignedA]
    cases inside : d.locals.holds a with
    | true => exact (h.zero a inside).symm
    | false => rw [if_neg (by simp), if_neg (apart (by omega)), h.word a ha inside]
  · rw [memory a ha, if_neg (apart (.inl last)), h.fresh a ha first last, ite_self]
  · rw [size]
    exact h.size
  · rw [regs .sp (by simp), h.sp]
  · rw [regs .bp (by simp), h.bp]
  · rw [regs .hp (by simp), h.hp]
  · rw [memory d.sp aligned, links (by omega), if_neg (by simp), if_neg ?_, h.result]
    intro same
    rw [← same] at next
    omega
  · rw [memory (d.sp + 4) (by omega), links (by omega), if_neg (by simp), if_pos rfl]
  · have outside : d.locals.holds a = false := Bool.eq_false_iff.2 fun holds => by
      obtain ⟨-, last⟩ := Activation.locals_holds holds
      omega
    have frame : d.frame.start = d.start.toNat := rfl
    rw [memory a ha, outside, if_neg (by simp), if_neg (apart (.inr (by omega)))]

/-! ## The prologue -/

/-- The locals of a function that has some are whole words, up to the end of the frame. -/
theorem Activation.Placed.locals (placed : d.Placed) (framed : d.self.Framed)
    (some_locals : 4 * d.self.arity < d.self.frame.size) : d.locals.start % 4 = 0 ∧ d.locals.size % 4 = 0 ∧
      0 < d.locals.size ∧ d.locals.start + d.locals.size ≤ d.scope.map.stackTop.toNat := by
  obtain ⟨-, last⟩ := placed.blocks d.frame List.mem_cons_self
  have last : d.start.toNat + d.self.frame.size ≤ d.scope.map.stackTop.toNat := last
  have whole := framed.aligned
  have aligned : d.start.toNat % 4 = 0 := by
    rw [placed.start]
    have aligned := placed.aligned
    simp only [Site.linkArea]
    split <;> omega
  simp only [Activation.locals]
  omega

/-- Code that clears a block above the stack pointer, word by word. -/
theorem leads_clearCode {fragment : String} {n : Nat} {b : Block} {post : Unit → RegPool → State → Prop}
    {exit : Nat → State → Prop} (first : (s.reg .sp).toNat + (Site.linkArea + n) = b.start) (aligned : b.start % 4 = 0)
    (whole : b.size % 4 = 0) (some_words : 0 < b.size) (behind : 4 * m.image.length ≤ b.start)
    (fits : b.start + b.size ≤ s.memory.size) (small : b.start + b.size < fullSize)
    (fine : ∀ q t, q.Sound → t.memory.size = s.memory.size → (∀ r, r ∉ RegPool.lent → r ≠ .k1 → t.reg r = s.reg r) →
      (∀ a : Word, a.toNat % 4 = 0 → t.memory.read a = if b.holds a then 0 else s.memory.read a) → post () q t) :
    Emit.Leads m (do
      let base ← Emit.acquire fragment
      let count ← Emit.acquire fragment
      offsetCode base .sp ((Site.linkArea + n : Nat) : Int)
      constCode count ((b.size / wordSize : Nat) : Int)
      Emit.pseudo (.zero base count)
      Emit.registers RegPool.endStatement) p s post exit := by
  refine .seq (.acquire fun base q taken => .seq (.acquire fun count q' taken' => ?_))
  have other : base ≠ count := taken.distinct taken'
  refine .seq (leads_offsetCode taken.nonzero (by decide) fun t memory only sum => ?_)
  refine .seq (leads_constCode fun u memory' regs => ?_)
  have same : u.memory = s.memory := memory'.trans memory
  simp only [fullSize] at small
  have words : 4 * (b.size / wordSize) = b.size := by
    simp only [wordSize]
    omega
  have start_eq : (u.reg base).toNat = b.start := by
    rw [regs, setReg_of_ne other, sum, Word.ofInt_natCast, UInt32.toNat_add, UInt32.toNat_ofNat']
    omega
  have count_eq : (u.reg count).toNat = b.size / wordSize := by
    rw [regs, setReg_self taken'.nonzero, Word.ofInt_natCast, UInt32.toNat_ofNat']
    omega
  refine .seq (.zero count_eq (by omega) (by omega) (by omega) (by rw [same]; omega) (by simp only [fullSize]; omega)
    fun x size only' zeros => .registers ?_)
  refine fine _ x (RegPool.sound_endStatement _) (by rw [size, same]) (fun r hr plain => ?_) fun a ha => ?_
  · have not_base := (RegPool.ne_of_mem_lent taken.lent hr).symm
    have not_count := (RegPool.ne_of_mem_lent taken'.lent hr).symm
    rw [only' r (by simp [not_base, not_count]), regs, setReg_of_ne not_count, only r (by simp [not_base, plain])]
  · have holds : b.holds a = true ↔ b.start ≤ a.toNat ∧ a.toNat < b.start + b.size := by
      rw [Block.holds_iff]
      omega
    rw [zeros a ha, start_eq, words, same]
    simp only [holds]

theorem leads_prologueCode {post : Unit → RegPool → State → Prop} {exit : Nat → State → Prop} (placed : d.Placed)
    (fits : m.Fits d.scope) (inner : d.self.isEntry = false) (framed : d.self.Framed)
    (words : ∀ v ∈ d.self.params, v.ty.isWord = true) (hself : site.self = d.self) (h : Called d ret st s)
    (fine : ∀ q t, q.Sound → Matches d st t → Links d ret t → Above d s t → post () q t) :
    (prologueCode site).Leads m {} s post exit := by
  obtain ⟨next, top, -⟩ := placed.linkArea inner
  obtain ⟨base, limit, stack, -⟩ := fits.ordered
  have image := fits.image
  have aligned := placed.aligned
  have low := placed.low
  have size := h.size
  have start : d.start.toNat = d.sp.toNat + 8 := by
    rw [placed.start, inner]; rfl
  have place : s.reg .sp + Word.ofImm 4 = d.sp + 4 := by rw [h.sp]; rfl
  unfold prologueCode
  rw [hself, if_neg (by simp [inner]), framed.locals?_eq words]
  refine .seq (.store (by rw [place]; exact ⟨by omega, by omega⟩) (by rw [place]; omega) fun t memory regs => ?_)
  rw [place, h.ra] at memory
  have size1 : t.memory.size = s.memory.size := by rw [memory, Memory.size_write]
  have stored {a : Word} (ha : a.toNat % 4 = 0) :
      t.memory.read a = if a = d.sp + 4 then addressOf ret else s.memory.read a := by
    rw [memory, Memory.read_write _ (by omega) ha]
    simp only [eq_comm (a := a)]
  by_cases some_locals : 4 * d.self.arity < d.self.frame.size
  · rw [if_pos some_locals, show d.self.frame.size - 4 * d.self.arity = d.locals.size from rfl]
    obtain ⟨first, whole, some_words, last⟩ := placed.locals framed some_locals
    have above : d.locals.start = d.start.toNat + 4 * d.self.arity := rfl
    have stackTop := d.scope.map.stackTop.toNat_lt
    refine leads_clearCode ?_ first whole some_words (by omega) (by omega) (by simp only [fullSize]; omega)
      fun q u sound size2 kept zeros => ?_
    · rw [regs, h.sp, above, start, Site.linkArea]
      omega
    have base_kept : ∀ r ∈ [Reg.sp, .bp, .hp], u.reg r = s.reg r := by
      intro r hr
      have plain : r ∉ RegPool.lent ∧ r ≠ .k1 := (by decide : ∀ r ∈ [Reg.sp, .bp, .hp], r ∉ RegPool.lent ∧ r ≠ .k1) r hr
      rw [kept r plain.1 plain.2, regs]
    obtain ⟨matched, links, above⟩ := h.matches placed fits inner (size2.trans size1) base_kept
      fun a ha => by rw [zeros a ha, stored ha]
    exact fine q u sound matched links above
  · rw [if_neg some_locals]
    have none_holds (a : Word) : d.locals.holds a = false := Bool.eq_false_iff.2 fun holds => by
      obtain ⟨first, last⟩ := Block.holds_iff.1 holds
      simp only [Activation.locals] at first last
      omega
    obtain ⟨matched, links, above⟩ := h.matches placed fits inner (t := t) size1 (fun r _ => by rw [regs])
      fun a ha => by rw [stored ha, none_holds, if_neg Bool.false_ne_true]
    exact .pure (fine _ t RegPool.sound_empty matched links above)

/-! ## Bodies -/

/-- What the body of a function comes to for the function: at its end it goes back without a result. -/
def Outcome.finished : Outcome → Outcome
  | next st => back st
  | o => o

section

variable {program : Program} {o : Outcome} {body : List Stmt} {st' : Store}

/-- What does not follow any value does not follow at all, unless it is that there is no value. -/
theorem Outcome.given_ne {α : Type} {value? : Option α} {f : α → Outcome} (stuck : .stuck ≠ o) (h : ∀ v, f v ≠ o) :
    Outcome.given value? f ≠ o := by
  cases value? with
  | none => exact stuck
  | some v => exact h v

theorem Outcome.andThen_eq_next {f : Store → Outcome} (h : o.andThen f = .next st') : ∃ st, o = .next st ∧ f st = .next st' := by
  cases o with
  | next st => exact ⟨st, rfl, h⟩
  | _ => cases h

theorem Activation.leave_ne_next (value : Option Expr) : d.leave st value ≠ .next st' := by
  unfold Activation.leave
  split
  · cases value with
    | none => exact nofun
    | some e => exact Outcome.given_ne nofun fun v => nofun
  · cases value with
    | none => exact nofun
    | some e =>
      refine Outcome.given_ne nofun fun v => ?_
      cases d.result? with
      | none => exact nofun
      | some a => exact Outcome.given_ne nofun fun st => nofun

/-- A body with a `return` at its end does not come to its end. -/
theorem runStmts_ne_next (h : endsWithReturn body = true) : runStmts program fuel d st body ≠ .next st' := by
  induction body generalizing fuel st with
  | nil => cases h
  | cons stmt rest ih =>
    cases fuel with
    | zero => exact nofun
    | succ fuel =>
      intro came
      obtain ⟨st1, first, rest_next⟩ := Outcome.andThen_eq_next came
      cases rest with
      | nil =>
        cases stmt with
        | «return» value => exact Activation.leave_ne_next value first
        | _ => cases h
      | cons stmt' rest =>
        have last : endsWithReturn (stmt' :: rest) = true := by
          rw [endsWithReturn, List.getLast?_cons_cons] at h
          exact h
        exact ih last rest_next

end

/-- Code for the body of a function leaves the function, if code for its statements does what they do. -/
theorem leads_bodyCode {program : Program} {body : List Stmt} (placed : d.Placed) (fits : m.Fits d.scope)
    (inner : d.self.isEntry = false) (framed : d.self.Framed) (words : ∀ v ∈ d.self.params, v.ty.isWord = true)
    (hself : site.self = d.self) (h : Called d ret st s)
    (statements : ∀ p t, p.Sound → Matches d st t → Links d ret t →
      Carries m d ret (stmtsCode site body) p t fuel (runStmts program fuel d st body)) :
    (bodyCode site body).Leads m {} s (fun _ _ _ => False) fun j u =>
      ∃ t, Above d s t ∧ Exits m d ret t fuel (runStmts program fuel d st body).finished j u := by
  refine .seq (leads_prologueCode placed fits inner framed words hself h fun q t sound matched links above => ?_)
  refine .seq (.mono (statements q t sound matched links) ?_ ?_)
  · rintro - q' u ⟨st', came, matched', spares⟩
    refine .ite (fun ends => absurd came (runStmts_ne_next ends)) fun _ => ?_
    have leaves : Carries m d ret (returnCode site none) q' u fuel (d.leave st' none) :=
      carries_returnCode_none placed hself matched' fun _ => links.spares placed inner spares
    have back : d.leave st' none = .back st' := by
      unfold Activation.leave
      rw [inner]; rfl
    rw [back] at leaves
    refine .mono leaves (fun _ _ _ never => ?_) fun j x left => ⟨t, above, ?_⟩
    · obtain ⟨_, never, _⟩ := never
      cases never
    · rw [came]
      exact Exits.earlier (o := .back st') left spares (Nat.le_refl _)
  · intro j u left
    refine ⟨t, above, ?_⟩
    cases ho : runStmts program fuel d st body with
    | next st' =>
      rw [ho] at left
      exact left.elim
    | _ => rwa [ho] at left

end M32.Lang
