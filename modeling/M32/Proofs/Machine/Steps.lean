/-
  Machines that carry out the instructions of an image.

  1. `Runs n s t` is a run of `n` steps without a halt, `run_of_runs` what it means for `State.run`.
  2. `Holds image s` says that memory holds an image, `At image k s` that its instruction `k` comes next.
  3. `computed?` gives the registers after an instruction that sets one of them from others.  `Computes image s k t` is a run
     to instruction `k` that leaves memory as it was.
  4. `Stores` is a run that changes one word, `Reaches` one that stores whatever it likes.
-/
import M32.Machine.Basic
import M32.Proofs.Machine.Memory
import M32.Proofs.Word

namespace M32.Machine

/-! ## Runs -/

/-- A step that ends nothing. -/
def Goes (s t : State) : Prop := ∃ pc i, s.step = (t, .ok ⟨pc, some i, none⟩)

/-- So many steps that end nothing. -/
inductive Runs : Nat → State → State → Prop where
  | refl (s : State) : Runs 0 s s
  | step {n : Nat} {s t u : State} (h : Goes s t) (rest : Runs n t u) : Runs (n + 1) s u

theorem Goes.runs {s t : State} (h : Goes s t) : Runs 1 s t := .step h (.refl t)

theorem Runs.trans {m n : Nat} {s t u : State} (h : Runs m s t) (g : Runs n t u) : Runs (m + n) s u := by
  induction h with
  | refl s => rwa [Nat.zero_add]
  | step first _ ih =>
    rw [Nat.add_right_comm]
    exact .step first (ih g)

namespace State

/-- The number of a step does not matter to a run that shows nothing. -/
theorem runWith_time (budget time : Nat) (s : State) :
    Id.run (runWith (fun _ _ _ => pure ⟨⟩) budget time s) = s.run budget := by
  induction budget generalizing time s with
  | zero => rfl
  | succ budget ih =>
    unfold run runWith
    rcases s.step with ⟨t, trap | ⟨pc, i, halt⟩⟩
    · rfl
    · cases halt with
      | some halt => rfl
      | none =>
        show Id.run (runWith _ budget (time + 1) t) = Id.run (runWith _ budget 1 t)
        rw [ih, ih]

theorem run_goes {s t : State} (h : Goes s t) (budget : Nat) : s.run (budget + 1) = t.run budget := by
  obtain ⟨pc, i, h⟩ := h
  rw [run, runWith, h]
  exact runWith_time budget 1 t

theorem run_halt {s t : State} {pc : Word} {i? : Option Instr} {halt : Halt} (h : s.step = (t, .ok ⟨pc, i?, some halt⟩))
    (budget : Nat) : s.run (budget + 1) = (t, .ok halt) := by
  rw [run, runWith, h]; rfl

end State

/-- A run goes on where its first steps lead. -/
theorem run_of_runs {n : Nat} {s t : State} (h : Runs n s t) (budget : Nat) : s.run (n + budget) = t.run budget := by
  induction h with
  | refl s => rw [Nat.zero_add]
  | step first _ ih => rw [Nat.add_right_comm, State.run_goes first, ih]

/-- A budget no larger than a run is used up by it. -/
theorem run_stepLimit_of_runs {n : Nat} {s t : State} (h : Runs n s t) {budget : Nat} (hb : budget ≤ n) :
    (s.run budget).2 = .ok .stepLimit := by
  induction h generalizing budget with
  | refl s =>
    obtain rfl : budget = 0 := by omega
    rfl
  | step first _ ih =>
    cases budget with
    | zero => rfl
    | succ budget =>
      rw [State.run_goes first]
      exact ih (by omega)

/-! ## Registers -/

/-- Registers of which one is set.  Register 0 stays as it is. -/
def setReg (regs : Reg → Word) (r : Reg) (w : Word) : Reg → Word :=
  fun q => if r = .zero then regs q else if q = r then w else regs q

namespace State

theorem reg_setReg (s : State) (r : Reg) (w : Word) : (s.setReg r w).reg = Machine.setReg s.reg r w := by
  funext q
  rw [setReg, Machine.setReg]
  by_cases hr : r = .zero
  · rw [if_pos hr, if_pos hr]
  · rw [if_neg hr, if_neg hr, reg, Reg.get_set]
    by_cases hq : r = q
    · rw [if_pos hq, if_pos hq.symm]
    · rw [if_neg hq, if_neg fun h => hq h.symm]; rfl

@[simp] theorem pc_setReg (s : State) (r : Reg) (w : Word) : (s.setReg r w).pc = s.pc := by
  unfold setReg; split <;> rfl

@[simp] theorem memory_setReg (s : State) (r : Reg) (w : Word) : (s.setReg r w).memory = s.memory := by
  unfold setReg; split <;> rfl

@[simp] theorem sregs_setReg (s : State) (r : Reg) (w : Word) : (s.setReg r w).sregs = s.sregs := by
  unfold setReg; split <;> rfl

@[simp] theorem imageEnd_setReg (s : State) (r : Reg) (w : Word) : (s.setReg r w).imageEnd = s.imageEnd := by
  unfold setReg; split <;> rfl

/-- The state in which a fetched instruction is carried out. -/
def advance (s : State) : State := { s with pc := s.pc + 4, steps := s.steps + 1 }

@[simp] theorem reg_advance (s : State) : s.advance.reg = s.reg := rfl

end State

theorem setReg_zero {regs : Reg → Word} (h : regs .zero = 0) (r : Reg) (w : Word) : setReg regs r w .zero = 0 := by
  rw [setReg]
  by_cases hr : r = .zero
  · rw [if_pos hr, h]
  · rw [if_neg hr, if_neg fun h => hr h.symm, h]

theorem setReg_self {regs : Reg → Word} {r : Reg} (hr : r ≠ .zero) (w : Word) : setReg regs r w r = w := by
  rw [setReg, if_neg hr, if_pos rfl]

theorem setReg_of_ne {regs : Reg → Word} {q r : Reg} (h : q ≠ r) (w : Word) : setReg regs r w q = regs q := by
  rw [setReg, if_neg h]
  split <;> rfl

/-! ## Images -/

/-- The address of an instruction. -/
def addressOf (k : Nat) : Word := UInt32.ofNat (4 * k)

/-- Whether memory holds an image. -/
structure Holds (image : List Instr) (s : State) : Prop where
  imageEnd : s.imageEnd = addressOf image.length
  fits : 4 * image.length ≤ s.memory.size
  small : 4 * image.length < fullSize
  fetch : ∀ k i, image[k]? = some i → Instr.decode (s.memory.read (addressOf k)) = .ok i

/-- Whether instruction `k` of an image comes next. -/
structure At (image : List Instr) (k : Nat) (s : State) : Prop extends Holds image s where
  pc : s.pc = addressOf k
  zero : s.reg .zero = 0

theorem toNat_addressOf {k : Nat} (h : 4 * k < fullSize) : (addressOf k).toNat = 4 * k := by
  rw [addressOf, UInt32.toNat_ofNat']
  exact Nat.mod_eq_of_lt h

theorem addressOf_succ (k : Nat) : addressOf k + 4 = addressOf (k + 1) := by
  rw [addressOf, addressOf, Nat.mul_add, UInt32.ofNat_add]; rfl

theorem addressOf_inj {k l : Nat} (hk : 4 * k < fullSize) (hl : 4 * l < fullSize) (h : addressOf k = addressOf l) : k = l := by
  have same := congrArg UInt32.toNat h
  rw [toNat_addressOf hk, toNat_addressOf hl] at same
  omega

/-- There is one instruction only that comes next. -/
theorem At.unique {image : List Instr} {j k : Nat} {s : State} (h : At image j s) (g : At image k s) (hj : j ≤ image.length)
    (hk : k ≤ image.length) : j = k := by
  have small := h.small
  exact addressOf_inj (by omega) (by omega) (h.pc.symm.trans g.pc)

/-- Where a branch goes. -/
theorem branchTarget_eq {k l : Nat} {offset : Int16} (h : (l : Int) = k + offset.toInt) :
    branchTarget (addressOf k) offset = addressOf l := by
  rw [branchTarget, Word.ofImm_eq, addressOf, addressOf, ← Word.ofInt_natCast, ← Word.ofInt_natCast,
    show (4 : Word) = Word.ofInt 4 from rfl, ← Word.ofInt_mul, ← Word.ofInt_add]
  congr 1
  rw [Int.natCast_mul, Int.natCast_mul, h]; omega

/-- Whether some instructions stand in an image from instruction `k`. -/
def Lies (image : List Instr) (k : Nat) (code : List Instr) : Prop := ∀ j i, code[j]? = some i → image[k + j]? = some i

namespace Lies

variable {image a b : List Instr} {k : Nat} {i : Instr}

theorem append (h : Lies image k (a ++ b)) : Lies image k a ∧ Lies image (k + a.length) b := by
  refine ⟨fun j i hj => h j i ?_, fun j i hj => ?_⟩
  · have lt : j < a.length := (List.getElem?_eq_some_iff.1 hj).1
    rw [List.getElem?_append_left lt, hj]
  · have at_end := h (a.length + j) i (by rw [List.getElem?_append_right (by omega)]; simpa using hj)
    rwa [Nat.add_assoc]

/-- Code stands in itself from its start. -/
theorem self (code : List Instr) : Lies code 0 code := by
  intro j i hj
  rwa [Nat.zero_add]

theorem head (h : Lies image k (i :: a)) : image[k]? = some i := h 0 i rfl

theorem tail (h : Lies image k (i :: a)) : Lies image (k + 1) a := (append (a := [i]) h).2

theorem get {j : Nat} (h : Lies image k a) (hj : a[j]? = some i) : image[k + j]? = some i := h j i hj

theorem part (h : Lies image k a) (j : Nat) (hb : b <+: a.drop j) : Lies image (k + j) b := by
  obtain ⟨rest, hr⟩ := hb
  intro n i hi
  have lt : n < b.length := (List.getElem?_eq_some_iff.1 hi).1
  rw [Nat.add_assoc]
  refine h.get ?_
  rw [← List.getElem?_drop, ← hr, List.getElem?_append_left lt, hi]

/-- Code lies within the image. -/
theorem length_le (h : Lies image k a) (some_code : 0 < a.length) : k + a.length ≤ image.length := by
  have last := h.get (List.getElem?_eq_getElem (show a.length - 1 < a.length by omega))
  have lt : k + (a.length - 1) < image.length := (List.getElem?_eq_some_iff.1 last).1
  omega

end Lies

/-- A run from one place to another takes a step at least. -/
theorem Runs.pos_of_ne {image : List Instr} {k l n : Nat} {s t : State} (h : Runs n s t) (hk : At image k s) (hl : At image l t)
    (inside : k ≤ image.length ∧ l ≤ image.length) (ne : k ≠ l) : 0 < n := by
  cases h with
  | step first rest => exact Nat.succ_pos _
  | refl =>
    have small := hk.small
    exact absurd (addressOf_inj (by omega) (by omega) (hk.pc.symm.trans hl.pc)) ne

/-! ## Fetching -/

/-- An instruction before the end of the image is fetched and carried out. -/
theorem step_of_fetch {s : State} {k : Nat} {i : Instr} (pc : s.pc = addressOf k) (before : 4 * k < s.imageEnd.toNat)
    (fits : 4 * k + 4 ≤ s.memory.size) (word : Instr.decode (s.memory.read (addressOf k)) = .ok i) :
    s.step = match s.advance.exec s.pc i with
      | (t, .ok halt) => (t, .ok ⟨s.pc, some i, halt⟩)
      | (t, .error trap) => (t, .error trap) := by
  have last : s.imageEnd.toNat < fullSize := s.imageEnd.toNat_lt
  have address : s.pc.toNat = 4 * k := by rw [pc, toNat_addressOf (by omega)]
  have aligned : ¬ s.pc % 4 ≠ 0 := by
    rw [ne_eq, Decidable.not_not, ← UInt32.toNat_inj, UInt32.toNat_mod, address]
    show 4 * k % 4 = 0
    omega
  have inside : (!s.memory.contains s.pc) = false := by
    rw [Memory.contains, address]
    simp; omega
  have behind : ¬ s.imageEnd ≤ s.pc := by
    rw [UInt32.le_iff_toNat_le, address]; omega
  rw [← pc] at word
  rw [State.step]
  simp only [if_neg aligned, inside, if_neg behind, word, Bool.false_eq_true, if_false]
  rfl

namespace At

variable {image : List Instr} {k : Nat} {i : Instr} {s t : State}

/-- The instruction that comes next is carried out. -/
theorem step_eq (h : At image k s) (hi : image[k]? = some i) : s.step = match s.advance.exec s.pc i with
    | (t, .ok halt) => (t, .ok ⟨s.pc, some i, halt⟩)
    | (t, .error trap) => (t, .error trap) := by
  have lt : k < image.length := (List.getElem?_eq_some_iff.1 hi).1
  have fits := h.fits
  have before : 4 * k < s.imageEnd.toNat := by
    rw [h.imageEnd, toNat_addressOf h.small]; omega
  exact step_of_fetch h.pc before (by omega) (h.fetch k i hi)

/-- What holds after an instruction that leaves memory as it was. -/
theorem of_rest (h : At image k s) (memory : t.memory = s.memory) (imageEnd : t.imageEnd = s.imageEnd) {l : Nat}
    (pc : t.pc = addressOf l) (zero : t.reg .zero = 0) : At image l t where
  imageEnd := by rw [imageEnd, h.imageEnd]
  fits := by rw [memory]; exact h.fits
  small := h.small
  fetch := by rw [memory]; exact h.fetch
  pc := pc
  zero := zero

end At

/-! ## Computing -/

/-- The registers after an instruction that sets one of them from others. -/
def computed? (i : Instr) (regs : Reg → Word) : Option (Reg → Word) :=
  match i with
  | .shift op rd rt amount => some (setReg regs rd (op.apply (regs rt) amount.toUInt32))
  | .shiftBy op rd rt rs => some (setReg regs rd (op.apply (regs rt) (regs rs)))
  | .arith op rd rs rt => some (setReg regs rd (op.apply (regs rs) (regs rt)))
  | .signed op rt rs imm => some (setReg regs rt (op.arith.apply (regs rs) (Word.ofImm imm)))
  | .bits op rt rs imm => some (setReg regs rt (op.arith.apply (regs rs) imm.toUInt32))
  | .lui rt imm => some (setReg regs rt (imm.toUInt32 <<< 16))
  | _ => none

/-- The registers after some such instructions. -/
def computedAll? : List Instr → (Reg → Word) → Option (Reg → Word)
  | [], regs => some regs
  | i :: code, regs => (computed? i regs).bind (computedAll? code)

theorem computedAll?_append (a b : List Instr) (regs : Reg → Word) :
    computedAll? (a ++ b) regs = (computedAll? a regs).bind (computedAll? b) := by
  induction a generalizing regs with
  | nil => rfl
  | cons i a ih =>
    show (computed? i regs).bind (computedAll? (a ++ b)) = ((computed? i regs).bind (computedAll? a)).bind (computedAll? b)
    rw [Option.bind_assoc]
    exact congrArg _ (funext ih)

/-- A run to instruction `k` that leaves memory as it was. -/
structure Computes (image : List Instr) (s : State) (k : Nat) (t : State) : Prop where
  runs : ∃ n, Runs n s t
  at_end : At image k t
  memory : t.memory = s.memory
  sregs : t.sregs = s.sregs

namespace Computes

variable {image : List Instr} {k l : Nat} {s t u : State}

theorem trans (h : Computes image s k t) (g : Computes image t l u) : Computes image s l u := by
  obtain ⟨m, first⟩ := h.runs
  obtain ⟨n, second⟩ := g.runs
  exact ⟨⟨m + n, first.trans second⟩, g.at_end, by rw [g.memory, h.memory], by rw [g.sregs, h.sregs]⟩

end Computes

/-! ## Memory -/

section

variable {image : List Instr} {k : Nat} {i : Instr} {s : State}

/-- Whether a word of memory can be loaded and stored. -/
def CanAccess (s : State) (a : Word) : Prop := a.toNat % 4 = 0 ∧ a.toNat + 4 ≤ s.memory.size

theorem accessFault?_eq_none {a pc : Word} (h : CanAccess s a) : s.advance.accessFault? pc a = none := by
  obtain ⟨aligned, inside⟩ := h
  have aligned : ¬ a % 4 ≠ 0 := by
    rw [ne_eq, Decidable.not_not, ← UInt32.toNat_inj, UInt32.toNat_mod]
    exact aligned
  have inside : s.advance.memory.contains a = true := decide_eq_true inside
  rw [State.accessFault?, if_neg aligned, if_pos inside]

/-- A run to instruction `k` that changes one word of memory, which lies behind the image. -/
structure Stores (image : List Instr) (s : State) (k : Nat) (a w : Word) (t : State) : Prop where
  runs : ∃ n, Runs n s t
  at_end : At image k t
  memory : t.memory = s.memory.write a w
  sregs : t.sregs = s.sregs

theorem Holds.write {t : State} {a w : Word} (h : Holds image s) (aligned : a.toNat % 4 = 0)
    (behind : 4 * image.length ≤ a.toNat) (memory : t.memory = s.memory.write a w) (imageEnd : t.imageEnd = s.imageEnd) :
    Holds image t where
  imageEnd := by rw [imageEnd, h.imageEnd]
  fits := by rw [memory]; exact h.fits
  small := h.small
  fetch := by
    intro k i hi
    have lt : k < image.length := (List.getElem?_eq_some_iff.1 hi).1
    have small := h.small
    have address := toNat_addressOf (k := k) (by omega)
    have apart : a ≠ addressOf k := by
      rintro rfl
      omega
    rw [memory, Memory.read_write _ aligned (by omega), if_neg apart]
    exact h.fetch k i hi

/-- A store. -/
theorem stores_store {rt base : Reg} {offset : Int16} (h : At image k s) (hi : image[k]? = some (.sw rt base offset))
    (ha : CanAccess s (s.reg base + Word.ofImm offset))
    (behind : 4 * image.length ≤ (s.reg base + Word.ofImm offset).toNat) :
    ∃ t, Stores image s (k + 1) (s.reg base + Word.ofImm offset) (s.reg rt) t ∧ t.reg = s.reg := by
  have goes : Goes s (s.advance.store (s.reg base + Word.ofImm offset) (s.reg rt)) := by
    refine ⟨s.pc, .sw rt base offset, ?_⟩
    rw [h.step_eq hi, State.exec, State.reg_advance]
    simp only [accessFault?_eq_none ha]
  have held : Holds image (s.advance.store (s.reg base + Word.ofImm offset) (s.reg rt)) :=
    h.toHolds.write ha.1 behind rfl rfl
  have pc : (s.advance.store (s.reg base + Word.ofImm offset) (s.reg rt)).pc = addressOf (k + 1) := by
    rw [← addressOf_succ, ← h.pc]; rfl
  exact ⟨_, ⟨⟨1, goes.runs⟩, ⟨held, pc, h.zero⟩, rfl, rfl⟩, rfl⟩

/-- A run to instruction `k`, whatever it stores. -/
structure Reaches (image : List Instr) (s : State) (k : Nat) (t : State) : Prop where
  runs : ∃ n, Runs n s t
  at_end : At image k t
  size : t.memory.size = s.memory.size
  sregs : t.sregs = s.sregs

theorem Computes.reaches {t : State} (h : Computes image s k t) : Reaches image s k t :=
  ⟨h.runs, h.at_end, by rw [h.memory], h.sregs⟩

theorem Stores.reaches {t : State} {a w : Word} (h : Stores image s k a w t) : Reaches image s k t :=
  ⟨h.runs, h.at_end, by rw [h.memory, Memory.size_write], h.sregs⟩

theorem Reaches.trans {l : Nat} {t u : State} (h : Reaches image s k t) (g : Reaches image t l u) : Reaches image s l u := by
  obtain ⟨m, first⟩ := h.runs
  obtain ⟨n, second⟩ := g.runs
  exact ⟨⟨m + n, first.trans second⟩, g.at_end, by rw [g.size, h.size], by rw [g.sregs, h.sregs]⟩

/-! ## The end -/

/-- A system call ends the run with a signal. -/
theorem halts_syscall (h : At image k s) (hi : image[k]? = some .syscall) :
    ∃ pc, s.step = (s.advance, .ok ⟨pc, some .syscall, some (.signal (s.reg .sig))⟩) :=
  ⟨s.pc, by rw [h.step_eq hi, State.exec]; rfl⟩

end

end M32.Machine
