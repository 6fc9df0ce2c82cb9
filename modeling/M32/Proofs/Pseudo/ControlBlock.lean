/-
  The registers of a program in its control block.

  A control block has 38 slots of a word each: one for each general register, slot 0 unused, and one for each saved special
  register (`slotAt`).
  1. `HasBlock s p` says that the control block at `p` is the one of a machine: it lies behind the image and before the
     scratch word, and `pcb` holds its address.  Its slots are words of their own (`toNat_slotAt`, `slotAt_inj`).
  2. `entries s p` is what the block keeps of a machine.  `passes_saveUser` is a run that writes these entries and the
     scratch word, `k0` by way of the latter.
  3. `passes_restoreUser` is a run that takes all registers from the block, whatever they were.
-/
import M32.Proofs.Machine.Straight
import M32.Pseudo

namespace M32

theorem Word.ofImm_ofNat {n : Nat} (h : n < 0x8000) : Word.ofImm (Int16.ofNat n) = UInt32.ofNat n := by
  rw [Word.ofImm_eq, Int16.toInt_ofNat_of_lt h, Word.ofInt_natCast]

theorem Reg.mem_all (r : Reg) : r ∈ Reg.all := List.mem_map.2 ⟨r.num, List.mem_finRange _, rfl⟩

namespace Machine

open Pseudo (scratchOffset regSlot sregSlot spilled savedSlots)

/-! ## Slots -/

/-- The address of a slot of the control block at `p`. -/
def slotAt (p : Word) (i : Nat) : Word := p + UInt32.ofNat (4 * i)

/-- The last word of memory, which pseudo-instructions use. -/
def scratchWord : Word := 0xFFFFFFFC

theorem scratchWord_mod : scratchWord.toNat % 4 = 0 := rfl

/-- Whether a machine with all of its memory has a control block at `p`, apart from the image and the scratch word.  Register 0
    is zero, as it is in any machine. -/
structure HasBlock (s : State) (p : Word) : Prop where
  size : s.memory.size = fullSize
  zero : s.reg .zero = 0
  pcb : s.sreg .pcb = p
  aligned : p.toNat % 4 = 0
  behind : s.imageEnd.toNat ≤ p.toNat
  before : p.toNat + 152 ≤ 0xFFFFFFFC

section

variable {s t : State} {p : Word} {i j : Nat} {r : Reg}

theorem toNat_slotAt (h : HasBlock s p) (hi : i < 38) : (slotAt p i).toNat = p.toNat + 4 * i := by
  have before := h.before
  rw [slotAt, UInt32.toNat_add, UInt32.toNat_ofNat_of_lt' (Nat.lt_of_lt_of_le (show 4 * i < 152 by omega) (by decide))]
  exact Nat.mod_eq_of_lt (by omega)

theorem slotAt_inj (h : HasBlock s p) (hi : i < 38) (hj : j < 38) (same : slotAt p i = slotAt p j) : i = j := by
  have address := congrArg UInt32.toNat same
  rw [toNat_slotAt h hi, toNat_slotAt h hj] at address
  omega

theorem slotAt_mod (h : HasBlock s p) (hi : i < 38) : (slotAt p i).toNat % 4 = 0 := by
  have aligned := h.aligned
  rw [toNat_slotAt h hi]
  omega

theorem slotAt_ne_scratchWord (h : HasBlock s p) (hi : i < 38) : scratchWord ≠ slotAt p i := by
  intro same
  have address := congrArg UInt32.toNat same
  rw [toNat_slotAt h hi] at address
  have last : scratchWord.toNat = 0xFFFFFFFC := rfl
  have before := h.before
  omega

theorem canStore_slotAt (h : HasBlock s p) (hi : i < 38) : CanStore s (slotAt p i) where
  access := by
    refine ⟨slotAt_mod h hi, ?_⟩
    have before := h.before
    have size : s.memory.size = 0x100000000 := h.size
    rw [toNat_slotAt h hi]
    omega
  behind := by
    have behind := h.behind
    rw [toNat_slotAt h hi]
    omega

theorem canStore_scratchWord (h : HasBlock s p) : CanStore s scratchWord where
  access := ⟨rfl, by rw [h.size]; decide⟩
  behind := by
    have behind := h.behind
    have before := h.before
    show s.imageEnd.toNat ≤ 0xFFFFFFFC
    omega

theorem at_scratch (zero : s.reg .zero = 0) : s.at .zero scratchOffset = scratchWord := by
  rw [State.at, zero]
  rfl

theorem at_regSlot (base : s.reg .k0 = p) (r : Reg) : s.at .k0 (regSlot r) = slotAt p r.num.val := by
  have lt := r.num_lt
  rw [State.at, base, regSlot, Word.ofImm_ofNat (by omega), slotAt]

theorem at_sregSlot (base : s.reg .k0 = p) (hi : i < 6) : s.at .k0 (sregSlot i) = slotAt p (32 + i) := by
  have index : 128 + 4 * i = 4 * (32 + i) := by omega
  rw [State.at, base, sregSlot, Word.ofImm_ofNat (by omega), slotAt, index]

/-! ## Registers with slots -/

theorem mem_spilled_iff : r ∈ spilled ↔ r ≠ .zero ∧ r ≠ .k0 := by
  rw [spilled, List.mem_filter]
  simp [Reg.mem_all]

theorem nodup_spilled : spilled.Nodup := by decide

theorem mem_savedSlots_iff {x : SReg × Int16} : x ∈ savedSlots ↔ ∃ i, SReg.saved[i]? = some x.1 ∧ x.2 = sregSlot i := by
  obtain ⟨q, slot⟩ := x
  rw [savedSlots, List.mem_mapIdx]
  constructor
  · rintro ⟨i, hi, same⟩
    obtain ⟨rfl, rfl⟩ := Prod.mk.inj same
    exact ⟨i, List.getElem?_eq_getElem hi, rfl⟩
  · rintro ⟨i, hi, rfl⟩
    obtain ⟨lt, rfl⟩ := List.getElem?_eq_some_iff.1 hi
    exact ⟨i, lt, rfl⟩

theorem lt_of_saved {q : SReg} (h : SReg.saved[i]? = some q) : i < 6 := (List.getElem?_eq_some_iff.1 h).1

/-! ## Saving -/

/-- What the control block at `p` keeps of a machine: its words with their addresses, in the order in which they are
    written. -/
def entries (s : State) (p : Word) : List (Word × Word) :=
  spilled.map (fun r => (slotAt p r.num.val, s.reg r)) ++ [(slotAt p Reg.k0.num.val, s.reg .k0)]
    ++ SReg.saved.mapIdx fun i q => (slotAt p (32 + i), s.sreg q)

theorem mem_entries_reg (s : State) (p : Word) (hr : r ≠ .zero) : (slotAt p r.num.val, s.reg r) ∈ entries s p := by
  rw [entries, List.mem_append, List.mem_append]
  by_cases h : r = .k0
  · rw [h]
    exact .inl (.inr List.mem_cons_self)
  · exact .inl (.inl (List.mem_map.2 ⟨r, mem_spilled_iff.2 ⟨hr, h⟩, rfl⟩))

theorem mem_entries_sreg (s : State) (p : Word) {q : SReg} (hq : SReg.saved[i]? = some q) :
    (slotAt p (32 + i), s.sreg q) ∈ entries s p := by
  obtain ⟨lt, rfl⟩ := List.getElem?_eq_some_iff.1 hq
  rw [entries, List.mem_append]
  exact .inr (List.mem_mapIdx.2 ⟨i, lt, rfl⟩)

/-- The slots in the order in which they are written. -/
def slotOrder : List Nat := spilled.map (·.num.val) ++ [Reg.k0.num.val] ++ [32, 33, 34, 35, 36, 37]

theorem mem_slotOrder_iff : i ∈ slotOrder ↔ 1 ≤ i ∧ i < 38 := by
  constructor
  · intro h
    have all : ∀ i ∈ slotOrder, 1 ≤ i ∧ i < 38 := by decide
    exact all i h
  · rintro ⟨pos, lt⟩
    have all : ∀ i < 38, 1 ≤ i → i ∈ slotOrder := by decide
    exact all i lt pos

theorem map_fst_entries (s : State) (p : Word) : (entries s p).map Prod.fst = slotOrder.map (slotAt p) := by
  simp only [entries, slotOrder, List.map_append, List.map_map]
  rfl

theorem nodup_entries (h : HasBlock s p) (t : State) : ((entries t p).map Prod.fst).Nodup := by
  have once : slotOrder.Nodup := by decide
  rw [map_fst_entries]
  refine List.pairwise_map.2 (once.imp_of_mem ?_)
  intro i j hi hj ne same
  exact ne (slotAt_inj h (mem_slotOrder_iff.1 hi).2 (mem_slotOrder_iff.1 hj).2 same)

theorem exists_slot_of_mem_entries {x : Word × Word} (h : x ∈ entries s p) : ∃ i, 1 ≤ i ∧ i < 38 ∧ x.1 = slotAt p i := by
  have address : x.1 ∈ slotOrder.map (slotAt p) := by
    rw [← map_fst_entries s p]
    exact List.mem_map.2 ⟨x, h, rfl⟩
  obtain ⟨i, hi, same⟩ := List.mem_map.1 address
  obtain ⟨pos, lt⟩ := mem_slotOrder_iff.1 hi
  exact ⟨i, pos, lt, same.symm⟩

theorem aligned_entries (h : HasBlock s p) (t : State) : ∀ x ∈ entries t p, x.1.toNat % 4 = 0 := by
  intro x hx
  obtain ⟨i, -, lt, address⟩ := exists_slot_of_mem_entries hx
  rw [address]
  exact slotAt_mod h lt

end

/-! ## Steps -/

/-- A machine that has the address of its control block in `k0`. -/
structure Aimed (s : State) (p : Word) : Prop extends HasBlock s p where
  base : s.reg .k0 = p

section

variable {s t : State} {p : Word} {k : Nat} {r : Reg}

theorem HasBlock.of_same (h : HasBlock s p) (same : SameImage s t) (zero : t.reg .zero = s.reg .zero)
    (sreg : t.sreg .pcb = s.sreg .pcb) : HasBlock t p where
  size := same.size.trans h.size
  zero := zero.trans h.zero
  pcb := sreg.trans h.pcb
  aligned := h.aligned
  behind := by rw [same.imageEnd]; exact h.behind
  before := h.before

theorem Aimed.of_same (h : Aimed s p) (same : SameImage s t) (zero : t.reg .zero = s.reg .zero) (base : t.reg .k0 = s.reg .k0)
    (sreg : t.sreg .pcb = s.sreg .pcb) : Aimed t p :=
  ⟨h.toHasBlock.of_same same zero sreg, base.trans h.base⟩

/-- `k0` takes the address of the control block. -/
theorem passes_aim (h : HasBlock s p) (stands : Stands [.mfs .k0 .pcb] k s) (pc : s.pc = addressOf k) :
    ∃ t, Passes [.mfs .k0 .pcb] k s t ∧ Aimed t p ∧ (∀ r, r ≠ .k0 → t.reg r = s.reg r) ∧ t.sreg = s.sreg ∧
      t.memory = s.memory := by
  obtain ⟨t, moving, regs, sregs, memory⟩ := passes_mfs stands pc
  have others : ∀ r, r ≠ .k0 → t.reg r = s.reg r := by
    intro r hr
    rw [regs, setReg_of_ne hr]
  have block : HasBlock t p := h.of_same moving.toSameImage (others _ (by decide)) (by rw [sregs])
  have base : t.reg .k0 = p := by rw [regs, setReg_self (by decide), h.pcb]
  exact ⟨t, moving, ⟨block, base⟩, others, sregs, memory⟩

/-- A register goes to the scratch word. -/
theorem passes_toScratch (h : HasBlock s p) (stands : Stands [.sw r .zero scratchOffset] k s) (pc : s.pc = addressOf k) :
    ∃ t, Passes [.sw r .zero scratchOffset] k s t ∧ t.reg = s.reg ∧ t.sreg = s.sreg ∧
      t.memory = s.memory.write scratchWord (s.reg r) := by
  have address := at_scratch h.zero
  have room := canStore_scratchWord h
  rw [← address] at room
  obtain ⟨t, storing, regs, sregs, memory⟩ := passes_sw stands pc room
  refine ⟨t, storing, regs, sregs, ?_⟩
  rw [memory, ← address]; rfl

/-- A register comes from the scratch word. -/
theorem passes_fromScratch (h : HasBlock s p) (stands : Stands [.lw r .zero scratchOffset] k s) (pc : s.pc = addressOf k) :
    ∃ t, Passes [.lw r .zero scratchOffset] k s t ∧ t.reg = setReg s.reg r (s.memory.read scratchWord) ∧ t.sreg = s.sreg ∧
      t.memory = s.memory := by
  have address := at_scratch h.zero
  have access := (canStore_scratchWord h).access
  rw [← address] at access ⊢
  exact passes_lw stands pc access

/-- `k1` goes to the slot of `k0`. -/
theorem passes_toSlot (h : Aimed s p) (stands : Stands [.sw .k1 .k0 (regSlot .k0)] k s) (pc : s.pc = addressOf k) :
    ∃ t, Passes [.sw .k1 .k0 (regSlot .k0)] k s t ∧ t.reg = s.reg ∧ t.sreg = s.sreg ∧
      t.memory = s.memory.write (slotAt p Reg.k0.num.val) (s.reg .k1) := by
  have address := at_regSlot h.base .k0
  have room := canStore_slotAt (i := Reg.k0.num.val) h.toHasBlock (by decide)
  rw [← address] at room
  obtain ⟨t, storing, regs, sregs, memory⟩ := passes_sw stands pc room
  refine ⟨t, storing, regs, sregs, ?_⟩
  rw [memory, ← address]; rfl

/-- `k1` comes from the slot of `k0`. -/
theorem passes_fromSlot (h : Aimed s p) (stands : Stands [.lw .k1 .k0 (regSlot .k0)] k s) (pc : s.pc = addressOf k) :
    ∃ t, Passes [.lw .k1 .k0 (regSlot .k0)] k s t ∧
      t.reg = setReg s.reg .k1 (s.memory.read (slotAt p Reg.k0.num.val)) ∧ t.sreg = s.sreg ∧ t.memory = s.memory := by
  have address := at_regSlot h.base .k0
  have access := (canStore_slotAt (i := Reg.k0.num.val) h.toHasBlock (by decide)).access
  rw [← address] at access ⊢
  exact passes_lw stands pc access

/-- All other registers go to their slots. -/
theorem passes_spill (h : Aimed s p)
    (stands : Stands ((spilled.map fun r => (r, regSlot r)).map fun x => .sw x.1 .k0 x.2) k s) (pc : s.pc = addressOf k) :
    ∃ t, Passes ((spilled.map fun r => (r, regSlot r)).map fun x => .sw x.1 .k0 x.2) k s t ∧ t.reg = s.reg ∧ t.sreg = s.sreg ∧
      t.memory = s.memory.writeAll (spilled.map fun r => (slotAt p r.num.val, s.reg r)) := by
  have room : ∀ x ∈ spilled.map fun r => (r, regSlot r), CanStore s (s.at .k0 x.2) := by
    intro x hx
    obtain ⟨r, -, rfl⟩ := List.mem_map.1 hx
    rw [at_regSlot h.base]
    exact canStore_slotAt h.toHasBlock (Nat.lt_of_lt_of_le r.num_lt (by decide))
  obtain ⟨t, storing, regs, sregs, memory⟩ := passes_stores stands pc room
  refine ⟨t, storing, regs, sregs, ?_⟩
  rw [memory, List.map_map]
  congr 1
  refine List.map_congr_left ?_
  intro r hr
  rw [Function.comp_apply, at_regSlot h.base]

/-- All other registers come from their slots. -/
theorem passes_unspill (h : Aimed s p)
    (stands : Stands ((spilled.map fun r => (r, regSlot r)).map fun x => .lw x.1 .k0 x.2) k s) (pc : s.pc = addressOf k) :
    ∃ t, Passes ((spilled.map fun r => (r, regSlot r)).map fun x => .lw x.1 .k0 x.2) k s t ∧ t.sreg = s.sreg ∧
      t.memory = s.memory ∧ (∀ r, r ≠ .zero → r ≠ .k0 → t.reg r = s.memory.read (slotAt p r.num.val)) ∧
      t.reg .zero = s.reg .zero := by
  have registers : (spilled.map fun r => (r, regSlot r)).map Prod.fst = spilled := by
    rw [List.map_map]
    exact List.map_id spilled
  have access : ∀ x ∈ spilled.map fun r => (r, regSlot r), CanAccess s (s.at .k0 x.2) := by
    intro x hx
    obtain ⟨r, -, rfl⟩ := List.mem_map.1 hx
    rw [at_regSlot h.base]
    exact (canStore_slotAt h.toHasBlock (Nat.lt_of_lt_of_le r.num_lt (by decide))).access
  have other : ∀ x ∈ spilled.map fun r => (r, regSlot r), x.1 ≠ .k0 ∧ x.1 ≠ .zero := by
    intro x hx
    obtain ⟨r, hr, rfl⟩ := List.mem_map.1 hx
    obtain ⟨not_zero, not_k0⟩ := mem_spilled_iff.1 hr
    exact ⟨not_k0, not_zero⟩
  obtain ⟨t, loading, sregs, memory, loaded, kept⟩ :=
    passes_loads stands pc access (by rw [registers]; exact nodup_spilled) other
  rw [registers] at kept
  refine ⟨t, loading, sregs, memory, ?_, ?_⟩
  · intro r not_zero not_k0
    have hr : r ∈ spilled := mem_spilled_iff.2 ⟨not_zero, not_k0⟩
    rw [loaded (r, regSlot r) (List.mem_map.2 ⟨r, hr, rfl⟩), at_regSlot h.base]
  · exact kept .zero fun hz => (mem_spilled_iff.1 hz).1 rfl

theorem map_savedSlots {α : Type} (f : SReg × Int16 → α) :
    savedSlots.map f = SReg.saved.mapIdx fun i q => f (q, sregSlot i) := rfl

/-- The saved special registers go to their slots. -/
theorem passes_spillSpecials (h : Aimed s p)
    (stands : Stands (savedSlots.flatMap fun x => [.mfs .k1 x.1, .sw .k1 .k0 x.2]) k s) (pc : s.pc = addressOf k) :
    ∃ t, Passes (savedSlots.flatMap fun x => [.mfs .k1 x.1, .sw .k1 .k0 x.2]) k s t ∧ t.sreg = s.sreg ∧
      (∀ r, r ≠ .k1 → t.reg r = s.reg r) ∧
      t.memory = s.memory.writeAll (SReg.saved.mapIdx fun i q => (slotAt p (32 + i), s.sreg q)) := by
  have room : ∀ x ∈ savedSlots, CanStore s (s.at .k0 x.2) := by
    intro x hx
    obtain ⟨i, hi, slot⟩ := mem_savedSlots_iff.1 hx
    have lt := lt_of_saved hi
    rw [slot, at_sregSlot h.base lt]
    exact canStore_slotAt h.toHasBlock (by omega)
  obtain ⟨t, storing, sregs, regs, memory⟩ := passes_storeSpecials stands pc room (by decide) (by decide)
  refine ⟨t, storing, sregs, regs, ?_⟩
  rw [memory, map_savedSlots]
  congr 1
  refine List.mapIdx_eq_mapIdx_iff.2 ?_
  intro i hi
  rw [at_sregSlot h.base hi]

/-- The saved special registers come from their slots. -/
theorem passes_unspillSpecials (h : Aimed s p)
    (stands : Stands (savedSlots.flatMap fun x => [.lw .k1 .k0 x.2, .mts .k1 x.1]) k s) (pc : s.pc = addressOf k) :
    ∃ t, Passes (savedSlots.flatMap fun x => [.lw .k1 .k0 x.2, .mts .k1 x.1]) k s t ∧ t.memory = s.memory ∧
      (∀ r, r ≠ .k1 → t.reg r = s.reg r) ∧
      (∀ i q, SReg.saved[i]? = some q → t.sreg q = s.memory.read (slotAt p (32 + i))) ∧ t.sreg .pcb = s.sreg .pcb := by
  have access : ∀ x ∈ savedSlots, CanAccess s (s.at .k0 x.2) := by
    intro x hx
    obtain ⟨i, hi, slot⟩ := mem_savedSlots_iff.1 hx
    have lt := lt_of_saved hi
    rw [slot, at_sregSlot h.base lt]
    exact (canStore_slotAt h.toHasBlock (by omega)).access
  obtain ⟨t, loading, memory, regs, loaded, kept⟩ :=
    passes_loadSpecials stands pc access (by decide) (by decide) (by decide)
  refine ⟨t, loading, memory, regs, ?_, kept .pcb (by decide)⟩
  intro i q hq
  rw [loaded (q, sregSlot i) (mem_savedSlots_iff.2 ⟨i, hq, rfl⟩), at_sregSlot h.base (lt_of_saved hq)]

/-! ## Sequences -/

/-- The sequence that saves, in its parts. -/
theorem instrs_saveUser : Pseudo.saveUser.instrs =
    [.sw .k0 .zero scratchOffset] ++ ([.mfs .k0 .pcb] ++ ((spilled.map fun r => (r, regSlot r)).map (fun x => .sw x.1 .k0 x.2) ++
      ([.lw .k1 .zero scratchOffset] ++ ([.sw .k1 .k0 (regSlot .k0)] ++
        savedSlots.flatMap fun x => [.mfs .k1 x.1, .sw .k1 .k0 x.2])))) := rfl

/-- The sequence that restores, in its parts. -/
theorem instrs_restoreUser : Pseudo.restoreUser.instrs =
    [.mfs .k0 .pcb] ++ (savedSlots.flatMap (fun x => [.lw .k1 .k0 x.2, .mts .k1 x.1]) ++ ([.lw .k1 .k0 (regSlot .k0)] ++
      ([.sw .k1 .zero scratchOffset] ++ ((spilled.map fun r => (r, regSlot r)).map (fun x => .lw x.1 .k0 x.2) ++
        [.lw .k0 .zero scratchOffset])))) := rfl

/-- Saving writes the entries of the control block and the scratch word. -/
theorem passes_saveUser (h : HasBlock s p) (stands : Stands Pseudo.saveUser.instrs k s) (pc : s.pc = addressOf k) :
    ∃ t, Passes Pseudo.saveUser.instrs k s t ∧ (∀ r, r ≠ .k0 → r ≠ .k1 → t.reg r = s.reg r) ∧ t.sreg = s.sreg ∧
      t.memory = s.memory.writeAll ((scratchWord, s.reg .k0) :: entries s p) := by
  rw [instrs_saveUser] at stands ⊢
  obtain ⟨a, keeping, regs_a, sregs_a, memory_a⟩ := passes_toScratch h stands.left pc
  have stands := stands.after keeping
  have block_a : HasBlock a p := h.of_same keeping.toSameImage (by rw [regs_a]) (by rw [sregs_a])
  obtain ⟨b, aiming, aimed_b, regs_b, sregs_b, memory_b⟩ := passes_aim block_a stands.left keeping.pc
  have stands := stands.after aiming
  obtain ⟨c, spilling, regs_c, sregs_c, memory_c⟩ := passes_spill aimed_b stands.left aiming.pc
  have stands := stands.after spilling
  have aimed_c : Aimed c p := aimed_b.of_same spilling.toSameImage (by rw [regs_c]) (by rw [regs_c]) (by rw [sregs_c])
  have general : spilled.map (fun r => (slotAt p r.num.val, b.reg r)) = spilled.map fun r => (slotAt p r.num.val, s.reg r) := by
    refine List.map_congr_left ?_
    intro r hr
    rw [regs_b r (mem_spilled_iff.1 hr).2, regs_a]
  rw [general, memory_b, memory_a] at memory_c
  -- no slot is the scratch word, so it still is what `k0` was
  have scratch : c.memory.read scratchWord = s.reg .k0 := by
    have apart : ∀ x ∈ spilled.map fun r => (slotAt p r.num.val, s.reg r), x.1.toNat % 4 = 0 ∧ x.1 ≠ scratchWord := by
      intro x hx
      obtain ⟨r, -, rfl⟩ := List.mem_map.1 hx
      have lt : r.num.val < 38 := Nat.lt_of_lt_of_le r.num_lt (by decide)
      exact ⟨slotAt_mod h lt, (slotAt_ne_scratchWord h lt).symm⟩
    rw [memory_c, Memory.read_writeAll_of_ne (fun x hx => (apart x hx).1) rfl (fun x hx => (apart x hx).2),
      Memory.read_write _ rfl rfl, if_pos rfl]
  obtain ⟨d, taking, regs_d, sregs_d, memory_d⟩ := passes_fromScratch aimed_c.toHasBlock stands.left spilling.pc
  have stands := stands.after taking
  rw [scratch] at regs_d
  have aimed_d : Aimed d p := aimed_c.of_same taking.toSameImage (by rw [regs_d, setReg_of_ne (by decide)])
    (by rw [regs_d, setReg_of_ne (by decide)]) (by rw [sregs_d])
  obtain ⟨e, storing, regs_e, sregs_e, memory_e⟩ := passes_toSlot aimed_d stands.left taking.pc
  rw [regs_d, setReg_self (by decide), memory_d, memory_c] at memory_e
  have aimed_e : Aimed e p := aimed_d.of_same storing.toSameImage (by rw [regs_e]) (by rw [regs_e]) (by rw [sregs_e])
  obtain ⟨t, rest, sregs_t, regs_t, memory_t⟩ := passes_spillSpecials aimed_e (stands.after storing) storing.pc
  have specials : e.sreg = s.sreg := by rw [sregs_e, sregs_d, sregs_c, sregs_b, sregs_a]
  refine ⟨t, keeping.trans (aiming.trans (spilling.trans (taking.trans (storing.trans rest)))), ?_, ?_, ?_⟩
  · intro r not_k0 not_k1
    rw [regs_t r not_k1, regs_e, regs_d, setReg_of_ne not_k1, regs_c, regs_b r not_k0, regs_a]
  · rw [sregs_t, specials]
  · rw [memory_t, memory_e, specials, entries, List.append_assoc, Memory.writeAll, Memory.writeAll_append,
      Memory.writeAll_append]
    rfl

/-- Restoring takes all registers from the control block. -/
theorem passes_restoreUser (h : HasBlock s p) (stands : Stands Pseudo.restoreUser.instrs k s) (pc : s.pc = addressOf k) :
    ∃ t, Passes Pseudo.restoreUser.instrs k s t ∧ t.reg .zero = 0 ∧
      (∀ r, r ≠ .zero → t.reg r = s.memory.read (slotAt p r.num.val)) ∧
      ∀ i q, SReg.saved[i]? = some q → t.sreg q = s.memory.read (slotAt p (32 + i)) := by
  rw [instrs_restoreUser] at stands ⊢
  obtain ⟨a, aiming, aimed_a, regs_a, sregs_a, memory_a⟩ := passes_aim h stands.left pc
  have stands := stands.after aiming
  obtain ⟨b, loading, memory_b, regs_b, specials_b, pcb_b⟩ := passes_unspillSpecials aimed_a stands.left aiming.pc
  have stands := stands.after loading
  have aimed_b : Aimed b p := aimed_a.of_same loading.toSameImage (regs_b _ (by decide)) (regs_b _ (by decide)) pcb_b
  obtain ⟨c, taking, regs_c, sregs_c, memory_c⟩ := passes_fromSlot aimed_b stands.left loading.pc
  have stands := stands.after taking
  have aimed_c : Aimed c p := aimed_b.of_same taking.toSameImage (by rw [regs_c, setReg_of_ne (by decide)])
    (by rw [regs_c, setReg_of_ne (by decide)]) (by rw [sregs_c])
  obtain ⟨d, keeping, regs_d, sregs_d, memory_d⟩ := passes_toScratch aimed_c.toHasBlock stands.left taking.pc
  have stands := stands.after keeping
  have aimed_d : Aimed d p := aimed_c.of_same keeping.toSameImage (by rw [regs_d]) (by rw [regs_d]) (by rw [sregs_d])
  have before : c.memory = s.memory := by rw [memory_c, memory_b, memory_a]
  -- `k0` is in the scratch word now, and no slot has changed
  rw [regs_c, setReg_self (by decide), before, memory_b, memory_a] at memory_d
  have slots : ∀ i < 38, d.memory.read (slotAt p i) = s.memory.read (slotAt p i) := by
    intro i hi
    rw [memory_d, Memory.read_write _ rfl (slotAt_mod h hi), if_neg (slotAt_ne_scratchWord h hi)]
  have scratch : d.memory.read scratchWord = s.memory.read (slotAt p Reg.k0.num.val) := by
    rw [memory_d, Memory.read_write _ rfl rfl, if_pos rfl]
  obtain ⟨e, unspilling, sregs_e, memory_e, regs_e, zero_e⟩ := passes_unspill aimed_d stands.left keeping.pc
  have block_e : HasBlock e p := aimed_d.toHasBlock.of_same unspilling.toSameImage zero_e (by rw [sregs_e])
  obtain ⟨t, last, regs_t, sregs_t, memory_t⟩ := passes_fromScratch block_e (stands.after unspilling) unspilling.pc
  refine ⟨t, aiming.trans (loading.trans (taking.trans (keeping.trans (unspilling.trans last)))), ?_, ?_, ?_⟩
  · rw [regs_t, setReg_of_ne (by decide), block_e.zero]
  · intro r not_zero
    by_cases is_k0 : r = .k0
    · rw [is_k0, regs_t, setReg_self (by decide), memory_e, scratch]
    · rw [regs_t, setReg_of_ne is_k0, regs_e r not_zero is_k0, slots _ (Nat.lt_of_lt_of_le r.num_lt (by decide))]
  · intro i q hq
    rw [sregs_t, sregs_e, sregs_d, sregs_c, specials_b i q hq, memory_a]

/-! ## Saving and restoring -/

/-- A program is saved and restored.  Saving stores each general register and each saved special register in its slot.  It
    changes no register but `k0` and `k1`, no special register, and no other word of memory than the scratch word.  From
    any machine with the same image, control block and entries, whatever else it has become, restoring brings all
    registers back that were saved. -/
theorem saved_is_restored {save restore : List Instr} (saves : Pseudo.saveUser.expand = .ok save)
    (restores : Pseudo.restoreUser.expand = .ok restore) (h : HasBlock s p) (stands : Stands save k s)
    (pc : s.pc = addressOf k) :
    ∃ t, Runs save.length s t ∧ t.pc = addressOf (k + save.length) ∧ SameImage s t ∧
      (∀ r, r ≠ .zero → t.memory.read (slotAt p r.num.val) = s.reg r) ∧
      (∀ i q, SReg.saved[i]? = some q → t.memory.read (slotAt p (32 + i)) = s.sreg q) ∧
      (∀ r, r ≠ .k0 → r ≠ .k1 → t.reg r = s.reg r) ∧ t.sreg = s.sreg ∧
      (∀ a : Word, a.toNat % 4 = 0 → a ≠ scratchWord → (∀ i, 1 ≤ i → i < 38 → a ≠ slotAt p i) →
        t.memory.read a = s.memory.read a) ∧
      ∀ (u : State) (l : Nat), SameImage s u → u.reg .zero = 0 → u.sreg .pcb = p →
        (∀ i, 1 ≤ i → i < 38 → u.memory.read (slotAt p i) = t.memory.read (slotAt p i)) →
        Stands restore l s → u.pc = addressOf l →
        ∃ v, Runs restore.length u v ∧ v.pc = addressOf (l + restore.length) ∧ v.reg = s.reg ∧
          ∀ q ∈ SReg.saved, v.sreg q = s.sreg q := by
  cases saves
  cases restores
  obtain ⟨t, passes, regs, sregs, memory⟩ := passes_saveUser h stands pc
  have aligned : ∀ x ∈ (scratchWord, s.reg .k0) :: entries s p, x.1.toNat % 4 = 0 := by
    intro x hx
    rcases List.mem_cons.1 hx with rfl | hx
    · exact scratchWord_mod
    · exact aligned_entries h s x hx
  have stored : ∀ a w, (a, w) ∈ entries s p → t.memory.read a = w := by
    intro a w hw
    rw [memory]
    refine Memory.read_writeAll_of_mem aligned ?_ (List.mem_cons_of_mem _ hw)
    rw [List.map_cons, List.nodup_cons]
    refine ⟨?_, nodup_entries h s⟩
    intro scratch
    obtain ⟨x, hx, same⟩ := List.mem_map.1 scratch
    obtain ⟨i, -, lt, address⟩ := exists_slot_of_mem_entries hx
    exact slotAt_ne_scratchWord h lt (same.symm.trans address)
  have general : ∀ r, r ≠ .zero → t.memory.read (slotAt p r.num.val) = s.reg r :=
    fun r hr => stored _ _ (mem_entries_reg s p hr)
  have special : ∀ i q, SReg.saved[i]? = some q → t.memory.read (slotAt p (32 + i)) = s.sreg q :=
    fun i q hq => stored _ _ (mem_entries_sreg s p hq)
  refine ⟨t, passes.runs, passes.pc, passes.toSameImage, general, special, regs, sregs, ?_, ?_⟩
  · intro a ha not_scratch not_slot
    rw [memory]
    refine Memory.read_writeAll_of_ne aligned ha ?_
    intro x hx same
    rcases List.mem_cons.1 hx with rfl | hx
    · exact not_scratch same.symm
    · obtain ⟨i, pos, lt, address⟩ := exists_slot_of_mem_entries hx
      exact not_slot i pos lt (same.symm.trans address)
  · intro u l same zero pcb kept restoring pc_u
    have block : HasBlock u p := h.of_same same (by rw [zero, h.zero]) (by rw [pcb, h.pcb])
    obtain ⟨v, back, zero_v, general_v, special_v⟩ := passes_restoreUser block (restoring.of_same same) pc_u
    refine ⟨v, back.runs, back.pc, ?_, ?_⟩
    · funext r
      by_cases hr : r = .zero
      · rw [hr, zero_v, h.zero]
      · have pos : 1 ≤ r.num.val := Nat.one_le_iff_ne_zero.2 fun none => hr (congrArg Reg.mk (Fin.ext none))
        rw [general_v r hr, kept _ pos (Nat.lt_of_lt_of_le r.num_lt (by decide)), general r hr]
    · intro q hq
      obtain ⟨i, hi⟩ := List.mem_iff_getElem?.1 hq
      have lt := lt_of_saved hi
      rw [special_v i q hi, kept _ (by omega) (by omega), special i q hi]

/-- A machine with both sequences in its image, of which a register and a special register change in between. -/
theorem saved_is_restored_changed : ∃ s t v : State, HasBlock s 0x2000 ∧ s.reg ⟨5⟩ = 42 ∧ Runs 46 s t ∧
    Runs 46 ((t.setReg ⟨5⟩ 7).setSReg .epc 9) v ∧ v.reg ⟨5⟩ = 42 ∧ v.sreg .epc = s.sreg .epc := by
  have legal : ∀ i ∈ Pseudo.saveUser.instrs ++ Pseudo.restoreUser.instrs, i.IsLegal := by decide
  obtain ⟨m, -, ready, size, -⟩ := holds_load fullSize (by decide) (by decide) legal
  have regs : ((m.setReg ⟨5⟩ 42).setSReg .pcb 0x2000).reg = setReg m.reg ⟨5⟩ 42 := State.reg_setReg m ⟨5⟩ 42
  have memory : ((m.setReg ⟨5⟩ 42).setSReg .pcb 0x2000).memory = m.memory := State.memory_setReg m ⟨5⟩ 42
  have imageEnd : ((m.setReg ⟨5⟩ 42).setSReg .pcb 0x2000).imageEnd = addressOf 92 :=
    (State.imageEnd_setReg m ⟨5⟩ 42).trans ready.imageEnd
  have same : SameImage m ((m.setReg ⟨5⟩ 42).setSReg .pcb 0x2000) := .of_memory (imageEnd.trans ready.imageEnd.symm) memory
  have block : HasBlock ((m.setReg ⟨5⟩ 42).setSReg .pcb 0x2000) 0x2000 := by
    refine ⟨by rw [memory, size], ?_, ?_, rfl, by rw [imageEnd]; decide, by decide⟩
    · rw [regs, setReg_of_ne (by decide), ready.zero]
    · exact (sreg_setSReg _ _ _ _).trans (if_pos rfl)
  have saving : Stands Pseudo.saveUser.instrs 0 ((m.setReg ⟨5⟩ 42).setSReg .pcb 0x2000) := by
    refine (ready.toHolds.stands ?_ (by decide)).of_same same
    intro j i hj
    rw [Nat.zero_add, List.getElem?_append_left (List.getElem?_eq_some_iff.1 hj).1, hj]
  have restoring : Stands Pseudo.restoreUser.instrs 46 ((m.setReg ⟨5⟩ 42).setSReg .pcb 0x2000) := by
    refine (ready.toHolds.stands ?_ (by decide)).of_same same
    intro j i hj
    rw [List.getElem?_append_right (Nat.le_add_right 46 j), ← hj]
    exact congrArg _ (Nat.add_sub_cancel_left 46 j)
  have pc : ((m.setReg ⟨5⟩ 42).setSReg .pcb 0x2000).pc = addressOf 0 := (State.pc_setReg m ⟨5⟩ 42).trans ready.pc
  generalize (m.setReg ⟨5⟩ 42).setSReg .pcb 0x2000 = s at *
  obtain ⟨t, first, pc_t, same_t, -, -, regs_t, sregs_t, -, back⟩ := saved_is_restored rfl rfl block saving pc
  have regs_u : ((t.setReg ⟨5⟩ 7).setSReg .epc 9).reg = setReg t.reg ⟨5⟩ 7 := State.reg_setReg t ⟨5⟩ 7
  have memory_u : ((t.setReg ⟨5⟩ 7).setSReg .epc 9).memory = t.memory := State.memory_setReg t ⟨5⟩ 7
  have value : s.reg ⟨5⟩ = 42 := by rw [regs, setReg_self (by decide)]
  obtain ⟨v, second, -, regs_v, sregs_v⟩ := back ((t.setReg ⟨5⟩ 7).setSReg .epc 9) 46
    (same_t.trans (.of_memory (State.imageEnd_setReg t ⟨5⟩ 7) memory_u))
    (by rw [regs_u, setReg_of_ne (by decide), regs_t _ (by decide) (by decide), block.zero])
    (by rw [sreg_setSReg, if_neg (by decide), State.sreg, State.sregs_setReg]; exact (congrFun sregs_t .pcb).trans block.pcb)
    (fun i _ _ => by rw [memory_u]) restoring ((State.pc_setReg t ⟨5⟩ 7).trans pc_t)
  exact ⟨s, t, v, block, value, first, second, by rw [regs_v, value], sregs_v .epc (by decide)⟩

end

end Machine

end M32
