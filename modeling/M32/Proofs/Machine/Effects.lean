/-
  What a step of the machine can do.

  1. A `Place` is what an instruction may write to: a register, a special register or a word of memory.  `destination?` is
     the place that an instruction names, and `ChangesOnly` says that two states differ there at most.
  2. `exec_changes` is for one instruction: it either refuses a data access and leaves the state as it is, or changes its
     destination only.
  3. `Stepped` lists all that a step can do (`stepped`).  What holds after every step follows from it, and what every step
     keeps is kept by a run (`run_keeps`).
  4. An `Act` is what can be done to a machine from outside.  None of them makes register 0 anything but zero.
-/
import M32.Proofs.Machine.Loading

namespace M32.Machine

/-! ## Places -/

/-- What an instruction may write to. -/
inductive Place where
  | reg (r : Reg)
  | sreg (r : SReg)
  | word (a : Word)
  deriving DecidableEq, Repr

/-- The destination of an instruction in a state.  Branches, jumps without a link and stops have none. -/
def destination? (s : State) : Instr → Option Place
  | .shift _ rd .. | .shiftBy _ rd .. | .jalr rd _ | .arith _ rd .. => some (.reg rd)
  | .mfs rt _ | .signed _ rt .. | .bits _ rt .. | .lui rt _ | .lw rt .. => some (.reg rt)
  | .jump true _ => some (.reg .ra)
  | .mts _ sel => some (.sreg sel)
  | .sw _ base offset => some (.word (s.reg base + Word.ofImm offset))
  | .jr _ | .syscall | .halt | .eret | .branchZero .. | .branch .. | .jump false _ => none

/-- Whether two states differ in one place at most, the program counter and the count of steps apart.  Register 0 is no
    such place, and a word that is one can be accessed. -/
structure ChangesOnly (p? : Option Place) (s t : State) : Prop where
  imageEnd : t.imageEnd = s.imageEnd
  zero : t.reg .zero = s.reg .zero
  regs : ∀ r, p? ≠ some (.reg r) → t.reg r = s.reg r
  sregs : ∀ r, p? ≠ some (.sreg r) → t.sreg r = s.sreg r
  memory : (∀ a, p? ≠ some (.word a)) → t.memory = s.memory
  word : ∀ a, p? = some (.word a) → CanAccess s a ∧ t.memory.size = s.memory.size ∧
    ∀ b : Word, b.toNat % 4 = 0 → b ≠ a → t.memory.read b = s.memory.read b

theorem sreg_setSReg (s : State) (r q : SReg) (w : Word) : (s.setSReg r w).sreg q = if r = q then w else s.sreg q := by
  show (s.sregs.set r.num.val w r.num.isLt)[q.num.val] = if r = q then w else s.sregs[q.num.val]
  have same : r.num.val = q.num.val ↔ r = q := by cases r <;> cases q <;> decide
  rw [Vector.getElem_set]
  by_cases h : r = q
  · rw [if_pos h, if_pos (same.2 h)]
  · rw [if_neg h, if_neg (mt same.1 h)]

/-- An address without an access fault can be accessed. -/
theorem canAccess_of_accessFault? {s : State} {pc a : Word} (h : s.accessFault? pc a = none) : CanAccess s a := by
  unfold State.accessFault? at h
  split at h
  · cases h
  · next aligned =>
    split at h
    · next inside =>
      rw [ne_eq, Decidable.not_not, ← UInt32.toNat_inj, UInt32.toNat_mod] at aligned
      exact ⟨aligned, of_decide_eq_true inside⟩
    · cases h

namespace ChangesOnly

variable {p? : Option Place} {s t : State}

theorem refl (s : State) : ChangesOnly none s s where
  imageEnd := rfl
  zero := rfl
  regs _ _ := rfl
  sregs _ _ := rfl
  memory _ := rfl
  word _ h := nomatch h

theorem setReg (s : State) (r : Reg) (w : Word) : ChangesOnly (some (.reg r)) s (s.setReg r w) where
  imageEnd := State.imageEnd_setReg s r w
  zero := by
    rw [State.reg_setReg, Machine.setReg]
    by_cases h : r = .zero
    · rw [if_pos h]
    · rw [if_neg h, if_neg fun e => h e.symm]
  regs q h := by
    rw [State.reg_setReg]
    exact setReg_of_ne (fun e => h (by rw [e])) w
  sregs q _ := by
    rw [State.sreg, State.sregs_setReg]; rfl
  memory _ := State.memory_setReg s r w
  word _ h := nomatch h

theorem setSReg (s : State) (r : SReg) (w : Word) : ChangesOnly (some (.sreg r)) s (s.setSReg r w) where
  imageEnd := rfl
  zero := rfl
  regs _ _ := rfl
  sregs q h := by
    rw [sreg_setSReg]
    exact if_neg fun e => h (by rw [e])
  memory _ := rfl
  word _ h := nomatch h

theorem store {a : Word} (access : CanAccess s a) (w : Word) : ChangesOnly (some (.word a)) s (s.store a w) where
  imageEnd := rfl
  zero := rfl
  regs _ _ := rfl
  sregs _ _ := rfl
  memory h := absurd rfl (h a)
  word b h := by
    cases h
    refine ⟨access, rfl, fun b aligned ne => ?_⟩
    show (s.memory.write a w).read b = _
    rw [Memory.read_write _ access.1 aligned, if_neg fun e => ne e.symm]

theorem jumpTo (h : ChangesOnly p? s t) (pc : Word) : ChangesOnly p? s (t.jumpTo pc) :=
  ⟨h.imageEnd, h.zero, h.regs, h.sregs, h.memory, h.word⟩

/-- The step that an instruction is part of changes no place of its own. -/
theorem of_advance (h : ChangesOnly p? s.advance t) : ChangesOnly p? s t :=
  ⟨h.imageEnd, h.zero, h.regs, h.sregs, h.memory, h.word⟩

end ChangesOnly

/-! ## Instructions -/

/-- Whether a trap is one of a data access. -/
def Trap.isAccess : Trap → Bool
  | unalignedAccess .. | accessOutOfBounds .. => true
  | unalignedFetch _ | fetchOutOfBounds _ | illegalInstruction .. => false

theorem isAccess_of_accessFault? {s : State} {pc a : Word} {trap : Trap} (h : s.accessFault? pc a = some trap) :
    trap.isAccess = true := by
  unfold State.accessFault? at h
  split at h
  · cases h; rfl
  · split at h
    · cases h
    · cases h; rfl

/-- Whether an instruction may stop the machine like this. -/
def Halt.IsOwn (halt : Halt) : Prop := halt = .halted ∨ ∃ code, halt = .signal code

/-- What an instruction does that is carried out. -/
structure Carried (i : Instr) (s t : State) (halt? : Option Halt) : Prop where
  only : ChangesOnly (destination? s i) s t
  steps : t.steps = s.steps
  halts : ∀ halt ∈ halt?, halt.IsOwn

theorem steps_setReg (s : State) (r : Reg) (w : Word) : (s.setReg r w).steps = s.steps := by
  unfold State.setReg; split <;> rfl

section

variable {i : Instr} {s t : State}

theorem carried_setReg {r : Reg} (h : destination? s i = some (.reg r)) (w : Word) : Carried i s (s.setReg r w) none :=
  ⟨h ▸ .setReg s r w, steps_setReg s r w, nofun⟩

theorem carried_jumpTo (h : Carried i s t none) (pc : Word) : Carried i s (t.jumpTo pc) none :=
  ⟨h.only.jumpTo pc, h.steps, h.halts⟩

theorem carried_same (h : destination? s i = none) {halt? : Option Halt} (halts : ∀ halt ∈ halt?, halt.IsOwn) :
    Carried i s s halt? :=
  ⟨h ▸ .refl s, rfl, halts⟩

/-- A branch jumps or does nothing. -/
theorem carried_branch (h : destination? s i = none) (taken : Bool) (pc : Word) :
    Carried i s (if taken then s.jumpTo pc else s) none := by
  split
  · exact carried_jumpTo (carried_same h nofun) pc
  · exact carried_same h nofun

end

/-- An instruction leaves the state as it is, for a data access that is refused, or changes its destination only. -/
theorem exec_changes (s : State) (pc : Word) (i : Instr) :
    (∃ trap, s.exec pc i = (s, .error trap) ∧ trap.isAccess = true) ∨
      ∃ t halt?, s.exec pc i = (t, .ok halt?) ∧ Carried i s t halt? := by
  cases i with
  | shift | shiftBy | arith | mfs | signed | bits | lui => exact .inr ⟨_, _, rfl, carried_setReg rfl _⟩
  | jr | eret => exact .inr ⟨_, _, rfl, carried_jumpTo (carried_same rfl nofun) _⟩
  | jalr => exact .inr ⟨_, _, rfl, carried_jumpTo (carried_setReg rfl _) _⟩
  | syscall =>
    refine .inr ⟨_, _, rfl, carried_same rfl ?_⟩
    rintro _ ⟨⟩
    exact .inr ⟨_, rfl⟩
  | halt =>
    refine .inr ⟨_, _, rfl, carried_same rfl ?_⟩
    rintro _ ⟨⟩
    exact .inl rfl
  | mts rt sel => exact .inr ⟨_, _, rfl, .setSReg s sel _, rfl, nofun⟩
  | branchZero | branch => exact .inr ⟨_, _, rfl, carried_branch rfl _ _⟩
  | jump link index =>
    cases link with
    | false => exact .inr ⟨_, _, rfl, carried_jumpTo (carried_same rfl nofun) _⟩
    | true => exact .inr ⟨_, _, rfl, carried_jumpTo (carried_setReg rfl _) _⟩
  | lw rt base offset =>
    simp only [State.exec]
    cases fault : s.accessFault? pc (s.reg base + Word.ofImm offset) with
    | some trap => exact .inl ⟨trap, rfl, isAccess_of_accessFault? fault⟩
    | none => exact .inr ⟨_, _, rfl, carried_setReg rfl _⟩
  | sw rt base offset =>
    simp only [State.exec]
    cases fault : s.accessFault? pc (s.reg base + Word.ofImm offset) with
    | some trap => exact .inl ⟨trap, rfl, isAccess_of_accessFault? fault⟩
    | none => exact .inr ⟨_, _, rfl, .store (canAccess_of_accessFault? fault) _, rfl, nofun⟩

/-! ## Steps -/

/-- All that a step can do to a state. -/
inductive Stepped (s : State) : State → Except Trap Step → Prop where
  /-- No instruction can be fetched, or the word that is fetched is none. -/
  | refused {trap : Trap} (fetch : trap.isAccess = false) : Stepped s s (.error trap)
  /-- The image is over. -/
  | ended : Stepped s s (.ok ⟨s.pc, none, some .endOfProgram⟩)
  /-- The instruction is fetched, and its data access is refused. -/
  | trapped {trap : Trap} (access : trap.isAccess = true) : Stepped s s.advance (.error trap)
  /-- The instruction is carried out. -/
  | done {i : Instr} {t : State} {halt? : Option Halt} (decoded : Instr.decode (s.memory.read s.pc) = .ok i)
    (only : ChangesOnly (destination? s i) s t) (steps : t.steps = s.steps + 1) (halts : ∀ halt ∈ halt?, halt.IsOwn) :
    Stepped s t (.ok ⟨s.pc, some i, halt?⟩)

theorem stepped (s : State) : Stepped s s.step.1 s.step.2 := by
  rw [State.step]
  dsimp only
  split
  · exact .refused rfl
  · split
    · exact .refused rfl
    · split
      · exact .ended
      · cases decoded : Instr.decode (s.memory.read s.pc) with
        | error e => exact .refused rfl
        | ok i =>
          rcases exec_changes s.advance s.pc i with ⟨trap, carrying, access⟩ | ⟨t, halt?, carrying, carried⟩
          · rw [State.advance] at carrying
            simp only [carrying]
            exact .trapped access
          · rw [State.advance] at carrying
            simp only [carrying]
            exact .done decoded carried.only.of_advance carried.steps carried.halts

theorem stepped_of_eq {s t : State} {result : Except Trap Step} (h : s.step = (t, result)) : Stepped s t result := by
  have all := stepped s
  rwa [h] at all

/-! ## Runs -/

namespace State

/-- A run is a step, and the rest of the run if the step ended nothing. -/
theorem run_succ (s : State) (budget : Nat) : s.run (budget + 1) = match s.step with
    | (t, .error trap) => (t, .error trap)
    | (t, .ok step) => match step.halt with
      | some halt => (t, .ok halt)
      | none => t.run budget := by
  rw [run, runWith]
  rcases s.step with ⟨t, trap | step⟩
  · rfl
  · cases h : step.halt with
    | some halt => simp only [h]; rfl
    | none =>
      simp only [h]
      exact runWith_time budget 1 t

/-- Who looks on at a run does not change it. -/
theorem runWith_eq {m : Type → Type} [Monad m] [LawfulMonad m] (observe : Nat → Step → State → m PUnit) (budget time : Nat)
    (s : State) : ∃ shown : m PUnit, runWith observe budget time s = (do shown; pure (s.run budget)) := by
  induction budget generalizing time s with
  | zero => exact ⟨pure ⟨⟩, by rw [pure_bind]; rfl⟩
  | succ budget ih =>
    rw [runWith, run_succ]
    rcases s.step with ⟨t, trap | step⟩
    · exact ⟨pure ⟨⟩, by rw [pure_bind]⟩
    · cases h : step.halt with
      | some halt => exact ⟨observe time step t, by simp only [h]⟩
      | none =>
        obtain ⟨shown, later⟩ := ih (time + 1) t
        refine ⟨(do observe time step t; shown), ?_⟩
        simp only [h, later, bind_assoc]

/-- What every step keeps is kept by a run. -/
theorem run_keeps {P : State → Prop} (keeps : ∀ s, P s → P s.step.1) {s : State} (hs : P s) (budget : Nat) :
    P (s.run budget).1 := by
  induction budget generalizing s with
  | zero => exact hs
  | succ budget ih =>
    have first := keeps s hs
    rw [run_succ]
    revert first
    rcases s.step with ⟨t, trap | step⟩
    · exact id
    · intro first
      cases h : step.halt with
      | some halt => simp only [h]; exact first
      | none => simp only [h]; exact ih first

end State

/-! ## Register 0 -/

/-- What can be done to a machine from outside. -/
inductive Act where
  | load (words : List Word)
  | setReg (r : Reg) (w : Word)
  | setSReg (r : SReg) (w : Word)
  | jumpTo (pc : Word)
  | poke (address w : Word)
  | step
  | run (budget : Nat)
  deriving DecidableEq, Repr

namespace State

/-- The state after an act.  What is refused changes nothing. -/
def act (s : State) : Act → State
  | .load words => match s.load words with
    | .ok t => t
    | .error _ => s
  | .setReg r w => s.setReg r w
  | .setSReg r w => s.setSReg r w
  | .jumpTo pc => s.jumpTo pc
  | .poke address w => match s.poke address w with
    | .ok t => t
    | .error _ => s
  | .step => s.step.1
  | .run budget => (s.run budget).1

/-- The state after some acts. -/
def acts (s : State) (as : List Act) : State := as.foldl act s

theorem reg_load {s t : State} {words : List Word} (h : s.load words = .ok t) : t.reg = s.reg := by
  unfold load at h
  dsimp only at h
  split at h
  · cases h
  · cases h
    exact (rest_storeAll s 0 words).2.1

theorem reg_poke {s t : State} {a w : Word} (h : s.poke a w = .ok t) : t.reg = s.reg := by
  unfold poke at h
  split at h
  · cases h
  · cases h; rfl

/-- A step leaves register 0 as it is. -/
theorem zero_step (s : State) : s.step.1.reg .zero = s.reg .zero := by
  rcases h : s.step with ⟨t, result⟩
  cases stepped_of_eq h with
  | refused | ended | trapped => rfl
  | done decoded only => exact only.zero

/-- Register 0 stays zero, whatever is done. -/
theorem zero_act {s : State} (h : s.reg .zero = 0) (a : Act) : (s.act a).reg .zero = 0 := by
  cases a with
  | load words =>
    simp only [act]
    split
    · next t loaded => rw [reg_load loaded, h]
    · exact h
  | setReg r w =>
    simp only [act, reg_setReg]
    exact setReg_zero h r w
  | setSReg r w => exact h
  | jumpTo pc => exact h
  | poke a w =>
    simp only [act]
    split
    · next t poked => rw [reg_poke poked, h]
    · exact h
  | step => exact (zero_step s).trans h
  | run budget => exact run_keeps (fun t ht => (zero_step t).trans ht) h budget

theorem zero_acts {s : State} (h : s.reg .zero = 0) (as : List Act) : (s.acts as).reg .zero = 0 := by
  induction as generalizing s with
  | nil => exact h
  | cons a as ih => exact ih (zero_act h a)

end State

/-! ## The machine -/

/-- What holds of every machine.
    1. Register 0 reads zero after all that can be done to a new one.
    2. A step that traps leaves registers, memory and the end of the image as they are.  If it is a data access that is
       refused, the program counter is at the next instruction and the step is counted; after any other trap these two
       are as they were.
    3. A step that finds the end of the program changes nothing.
    4. Any other step is counted once.  It carries the instruction out that the word at the program counter is, and changes
       its destination only, the program counter apart. -/
theorem step_effects :
    (∀ (size : Nat) (as : List Act), ((State.ofSize size).acts as).reg .zero = 0) ∧
    (∀ (s t : State) (trap : Trap), s.step = (t, .error trap) →
      t.regs = s.regs ∧ t.sregs = s.sregs ∧ t.memory = s.memory ∧ t.imageEnd = s.imageEnd ∧
        (t.pc, t.steps) = if trap.isAccess then (s.pc + 4, s.steps + 1) else (s.pc, s.steps)) ∧
    (∀ (s t : State) (step : Step), s.step = (t, .ok step) → step.halt = some .endOfProgram → t = s) ∧
    (∀ (s t : State) (step : Step), s.step = (t, .ok step) → step.halt ≠ some .endOfProgram →
      t.steps = s.steps + 1 ∧ ∃ i, Instr.decode (s.memory.read s.pc) = .ok i ∧ step.instr = some i ∧
        ChangesOnly (destination? s i) s t) := by
  refine ⟨?_, ?_, ?_, ?_⟩
  · intro size as
    exact State.zero_acts (reg_ofSize size .zero) as
  · intro s t trap h
    cases stepped_of_eq h with
    | refused fetch => rw [fetch]; exact ⟨rfl, rfl, rfl, rfl, rfl⟩
    | trapped access => rw [access]; exact ⟨rfl, rfl, rfl, rfl, rfl⟩
  · intro s t step h halt
    cases stepped_of_eq h with
    | ended => rfl
    | done decoded only steps halts =>
      rcases halts _ halt with own | ⟨code, own⟩ <;> cases own
  · intro s t step h halt
    cases stepped_of_eq h with
    | ended => exact absurd rfl halt
    | done decoded only steps => exact ⟨steps, _, decoded, rfl, only⟩

/-- A load from an address that is no multiple of four, a jump through the register that it links, and an empty image. -/
theorem step_effects_cases :
    (∃ s t trap, (State.ofSize 256).load [0x8C020002] = .ok s ∧ s.step = (t, .error trap) ∧ trap.isAccess = true ∧
      t.regs = s.regs ∧ (t.pc, t.steps) = (s.pc + 4, s.steps + 1)) ∧
    (∃ s t step, (State.ofSize 256).load [0x00401009] = .ok s ∧ s.step = (t, .ok step) ∧ step.halt = none ∧
      t.steps = s.steps + 1 ∧ ∃ i, step.instr = some i ∧ ChangesOnly (destination? s i) s t) ∧
    ∃ t step, (State.ofSize 256).step = (t, .ok step) ∧ step.halt = some .endOfProgram ∧ t = State.ofSize 256 := by
  have trap : ((State.ofSize 256).load [0x8C020002]).toOption.any (fun s => match s.step.2 with
      | .error trap => trap.isAccess
      | .ok _ => false) = true := by decide +kernel
  have link : ((State.ofSize 256).load [0x00401009]).toOption.any (fun s => s.step.2.toOption.any fun step =>
      decide (step.halt = none)) = true := by decide +kernel
  refine ⟨?_, ?_, ?_⟩
  · cases loaded : (State.ofSize 256).load [0x8C020002] with
    | error e => rw [loaded] at trap; cases trap
    | ok s =>
      rw [loaded] at trap
      simp only [Except.toOption, Option.any_some] at trap
      rcases h : s.step with ⟨t, trap' | step⟩
      · rw [h] at trap
        obtain ⟨regs, -, -, -, rest⟩ := step_effects.2.1 s t trap' h
        rw [if_pos trap] at rest
        exact ⟨s, t, trap', rfl, h, trap, regs, rest⟩
      · rw [h] at trap
        cases trap
  · cases loaded : (State.ofSize 256).load [0x00401009] with
    | error e => rw [loaded] at link; cases link
    | ok s =>
      rw [loaded] at link
      simp only [Except.toOption, Option.any_some] at link
      rcases h : s.step with ⟨t, trap' | step⟩
      · rw [h] at link
        cases link
      · rw [h] at link
        have on : step.halt = none := of_decide_eq_true link
        obtain ⟨steps, i, -, instr, only⟩ := step_effects.2.2.2 s t step h (by rw [on]; nofun)
        exact ⟨s, t, step, rfl, h, on, steps, i, instr, only⟩
  · exact ⟨_, _, rfl, rfl, step_effects.2.2.1 _ _ _ rfl rfl⟩

end M32.Machine
