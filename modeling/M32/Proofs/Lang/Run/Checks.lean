/-
  Pointers that move, and the checks of their limits.

  1. `leads_bumpCode` moves a pointer, `leads_constCode` loads a number and `leads_storeCode` stores at a distance.
  2. `leads_stackCheckCode` and `leads_heapCheckCode` go on as long as the pointer keeps its limit, and otherwise exit before
     a system call with the signal of the limit.
-/
import M32.Proofs.Lang.Run.Activations

namespace M32.Lang

open Machine

variable {m : Linked} {p : RegPool} {s : State} {exit : Nat → State → Prop} {post : Unit → RegPool → State → Prop}

/-! ## Pointers -/

theorem leads_bumpCode {r : Reg} {delta : Int} (hr : r ≠ .zero) (plain : r ≠ .k0)
    (h : ∀ t : State, t.memory = s.memory → Only [r, .k0] s.reg t.reg → t.reg r = s.reg r + Word.ofInt delta → post () p t) :
    (bumpCode r delta).Leads m p s post exit := by
  refine .ite (fun fits => .instr rfl fun t memory regs => h t memory ?_ ?_) fun _ => ?_
  · rw [regs]
    exact (Only.refl _ _).set (by simp) _
  · rw [regs, setReg_self hr, Word.ofImm_ofInt fits]; rfl
  · refine .seq (.gpr fun t memory regs => ?_)
    refine .instr rfl fun u memory' regs' => h u (memory'.trans memory) ?_ ?_
    · rw [regs', regs]
      exact ((Only.refl _ _).set (by simp) _).set (by simp) _
    · rw [regs', setReg_self hr]
      show t.reg r + t.reg .k0 = _
      rw [regs, setReg_of_ne plain, setReg_self (by decide)]

theorem leads_constCode {dst : Reg} {value : Int}
    (h : ∀ t : State, t.memory = s.memory → t.reg = setReg s.reg dst (Word.ofInt value) → post () p t) :
    (constCode dst value).Leads m p s post exit := by
  refine .of_zero fun zero => .ite (fun fits => .instr rfl fun t memory regs => h t memory ?_) fun _ => .gpr h
  rw [regs, zero, Word.ofImm_ofInt fits]
  exact congrArg (setReg s.reg dst) (UInt32.zero_add _)

theorem leads_storeCode {source base : Reg} {offset : Int} {a : Word} (hb : base ≠ .k1) (hs : source ≠ .k1)
    (address : s.reg base + Word.ofInt offset = a) (access : CanAccess s a) (behind : 4 * m.image.length ≤ a.toNat)
    (h : ∀ t : State, t.memory = s.memory.write a (s.reg source) → Only [.k1] s.reg t.reg → post () p t) :
    (storeCode source base offset).Leads m p s post exit := by
  refine .ite (fun fits => ?_) fun _ => ?_
  · have place : s.reg base + Word.ofImm (Int16.ofInt offset) = a := by rw [Word.ofImm_ofInt fits, address]
    refine .store (by rwa [place]) (by rwa [place]) fun t memory regs => h t ?_ ?_
    · rw [memory, place]
    · rw [regs]
      exact Only.refl _ _
  · refine .seq (leads_offsetCode (by decide) hb fun t memory only sum => ?_)
    have place : t.reg .k1 + Word.ofImm 0 = a := by
      rw [sum, address]
      exact UInt32.add_zero _
    refine .store (by rw [place, CanAccess, memory]; exact access) (by rwa [place]) fun u memory' regs => h u ?_ ?_
    · rw [memory', place, memory, only source (by simp [hs])]
    · rw [regs]
      exact only.mono (by simp)

/-! ## Signals -/

/-- A system call ends the program with the code that a register holds. -/
theorem leads_syscall (h : Halts s (s.reg .sig) → exit 0 s) : (Emit.instr .syscall).Leads m p s post exit := by
  intro r k hx hk hc
  cases (Emit.instr_eq_ok_iff _ _).1 hx
  obtain ⟨pc, hs⟩ := halts_syscall hk hc.cons.1.head
  exact .inr ⟨0, 0, s, .refl s, Nat.le_refl 0, h ⟨pc, _, _, hs, rfl⟩⟩

/-- A signal is raised unless `k0` is zero. -/
theorem leads_signalCode {signal : Int16} {c : Bool} (hc : s.reg .k0 = Word.ofBool c)
    (h : if c then ∀ t, t.memory = s.memory → Halts t (Word.ofImm signal) → exit 0 t
      else ∀ t : State, t.memory = s.memory → t.reg = s.reg → post () p t) :
    (signalCode signal).Leads m p s post exit := by
  intro r k hx hk hl
  cases (Emit.lines_eq_ok_iff _ _).1 hx
  have code : Lies m.image k [.beq .k0 .zero 3, .addi .sig .zero signal, .syscall] := hl
  cases c with
  | false =>
    obtain ⟨t, ht, regs⟩ := computes_branch hk code.head (l := k + 3) (by
      rw [hc, hk.zero]; rfl)
    obtain ⟨n, runs⟩ := ht.runs
    exact .inl ⟨n, t, runs, ht.at_end, h t ht.memory regs⟩
  | true =>
    obtain ⟨t1, h1, r1⟩ := computes_branch hk code.head (l := k + 1) (by
      rw [hc, hk.zero]; rfl)
    obtain ⟨t2, h2, r2⟩ := computes_one h1.at_end code.tail.head rfl
    obtain ⟨pc, hs⟩ := halts_syscall h2.at_end code.tail.tail.head
    have both := h1.trans h2
    have signalled : t2.reg .sig = Word.ofImm signal := by
      rw [r2, h1.at_end.zero, setReg_self (by decide)]
      exact UInt32.zero_add _
    obtain ⟨n, runs⟩ := both.runs
    exact .inr ⟨n, 0, t2, runs, Nat.zero_le n, h t2 both.memory ⟨pc, some .syscall, t2.advance, signalled ▸ hs, rfl⟩⟩

/-- The check of the stack pointer. -/
theorem leads_stackCheckCode {map : MemoryMap}
    (crossed : s.reg .sp < map.stackLimit → ∀ t, t.memory = s.memory → Halts t (Word.ofImm Signal.stackLimit) → exit 0 t)
    (fine : ¬ s.reg .sp < map.stackLimit → ∀ t : State, t.memory = s.memory → Only [.k0] s.reg t.reg → post () p t) :
    (stackCheckCode map).Leads m p s post exit := by
  refine .seq (.gpr fun t memory regs => .seq (.instr rfl fun u memory' regs' => ?_))
  have test : u.reg .k0 = Word.ofBool (decide (s.reg .sp < map.stackLimit)) := by
    rw [regs', setReg_self (by decide)]
    show Word.ofBool (decide (t.reg .sp < t.reg .k0)) = _
    rw [regs, setReg_of_ne (by decide), setReg_self (by decide)]
  have only : Only [.k0] s.reg u.reg := by
    rw [regs', regs]
    exact ((Only.refl _ _).set (by simp) _).set (by simp) _
  refine leads_signalCode test ?_
  by_cases below : s.reg .sp < map.stackLimit
  · rw [if_pos (decide_eq_true below)]
    exact fun x memory'' => crossed below x (memory''.trans (memory'.trans memory))
  · rw [if_neg (by simp [below])]
    exact fun x memory'' regs'' => fine below x (memory''.trans (memory'.trans memory)) (regs'' ▸ only)

/-- The check of the heap pointer. -/
theorem leads_heapCheckCode {map : MemoryMap}
    (crossed : map.heapLimit < s.reg .hp → ∀ t, t.memory = s.memory → Halts t (Word.ofImm Signal.heapLimit) → exit 0 t)
    (fine : ¬ map.heapLimit < s.reg .hp → ∀ t : State, t.memory = s.memory → Only [.k0] s.reg t.reg → post () p t) :
    (heapCheckCode map).Leads m p s post exit := by
  refine .seq (.gpr fun t memory regs => .seq (.instr rfl fun u memory' regs' => ?_))
  have test : u.reg .k0 = Word.ofBool (decide (map.heapLimit < s.reg .hp)) := by
    rw [regs', setReg_self (by decide)]
    show Word.ofBool (decide (t.reg .k0 < t.reg .hp)) = _
    rw [regs, setReg_of_ne (show Reg.hp ≠ .k0 by decide), setReg_self (by decide)]
  have only : Only [.k0] s.reg u.reg := by
    rw [regs', regs]
    exact ((Only.refl _ _).set (by simp) _).set (by simp) _
  refine leads_signalCode test ?_
  by_cases above : map.heapLimit < s.reg .hp
  · rw [if_pos (decide_eq_true above)]
    exact fun x memory'' => crossed above x (memory''.trans (memory'.trans memory))
  · rw [if_neg (by simp [above])]
    exact fun x memory'' regs'' => fine above x (memory''.trans (memory'.trans memory)) (regs'' ▸ only)

end M32.Lang
