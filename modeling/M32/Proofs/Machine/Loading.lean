/-
  Machines with an image.

  `State.storeAll` puts words at the addresses of their indices and leaves the rest of memory alone.  So a machine that loads
  the words of some instructions holds them as an image (`holds_load`), with zeros everywhere else.
-/
import M32.Proofs.Instr.Words
import M32.Proofs.Machine.Steps

namespace M32.Machine

variable {s : State} {ws : List Word} {n k : Nat} {a w : Word} {image : List Instr}

/-! ## Words in a row -/

theorem addressOf_ne {l : Nat} (hk : 4 * k < fullSize) (hl : 4 * l < fullSize) (ne : k ≠ l) : addressOf k ≠ addressOf l :=
  fun he => ne (addressOf_inj hk hl he)

theorem addressOf_mod (h : 4 * k < fullSize) : (addressOf k).toNat % 4 = 0 := by
  rw [toNat_addressOf h]
  exact Nat.mul_mod_right 4 k

/-- What is stored from some address on changes no other word. -/
theorem read_storeAll_of_outside (small : 4 * (n + ws.length) ≤ fullSize) (ha : a.toNat % 4 = 0)
    (outside : ∀ i < ws.length, addressOf (n + i) ≠ a) : (s.storeAll (addressOf n) ws).memory.read a = s.memory.read a := by
  induction ws generalizing s n with
  | nil => rfl
  | cons w ws ih =>
    rw [List.length_cons] at small outside
    rw [State.storeAll, addressOf_succ, ih (by omega) fun i hi => ?_]
    · show (s.memory.write _ w).read a = _
      exact (Memory.read_write _ (addressOf_mod (by omega)) ha w).trans (if_neg (outside 0 (Nat.succ_pos _)))
    · rw [Nat.add_assoc, Nat.add_comm 1 i]
      exact outside (i + 1) (Nat.succ_lt_succ hi)

/-- What is stored from some address on stands there. -/
theorem read_storeAll (small : 4 * (n + ws.length) ≤ fullSize) (hw : ws[k]? = some w) :
    (s.storeAll (addressOf n) ws).memory.read (addressOf (n + k)) = w := by
  induction ws generalizing s n k with
  | nil => cases hw
  | cons first ws ih =>
    rw [List.length_cons] at small
    rw [State.storeAll, addressOf_succ]
    cases k with
    | zero =>
      cases hw
      have aligned := addressOf_mod (k := n) (by omega)
      have later : ((s.store (addressOf n) w).storeAll (addressOf (n + 1)) ws).memory.read (addressOf n) =
          (s.memory.write (addressOf n) w).read (addressOf n) :=
        read_storeAll_of_outside (by omega) aligned fun i hi => addressOf_ne (by omega) (by omega) (by omega)
      exact later.trans ((Memory.read_write _ aligned aligned w).trans (if_pos rfl))
    | succ k =>
      rw [← Nat.add_assoc, Nat.add_right_comm]
      exact ih (by omega) hw

/-- Storing changes nothing but memory, and not its size. -/
theorem rest_storeAll (s : State) (a : Word) (ws : List Word) : (s.storeAll a ws).memory.size = s.memory.size ∧ (s.storeAll a ws).reg = s.reg ∧
    (s.storeAll a ws).pc = s.pc := by
  induction ws generalizing s a with
  | nil => exact ⟨rfl, rfl, rfl⟩
  | cons w ws ih => exact ih (s.store a w) (a + 4)

/-! ## Loading -/

theorem reg_ofSize (size : Nat) (r : Reg) : (State.ofSize size).reg r = 0 := by
  simp [State.ofSize, State.reg, Vector.get]

/-- A machine that loads the words of an image holds it and is at its start.  All else is zero. -/
theorem holds_load (size : Nat) (fits : 4 * image.length ≤ size) (small : 4 * image.length < fullSize)
    (legal : ∀ i ∈ image, i.IsLegal) :
    ∃ s, (State.ofSize size).load (image.map Instr.encode) = .ok s ∧ At image 0 s ∧ s.memory.size = size ∧
      ∀ a : Word, a.toNat % 4 = 0 → 4 * image.length ≤ a.toNat → s.memory.read a = 0 := by
  obtain ⟨memory, regs, pc⟩ := rest_storeAll (State.ofSize size) (addressOf 0) (image.map Instr.encode)
  have room : ¬ (size < 4 * (image.map Instr.encode).length ∨ fullSize ≤ 4 * (image.map Instr.encode).length) := by
    rw [List.length_map]
    omega
  refine ⟨{ (State.ofSize size).storeAll (addressOf 0) (image.map Instr.encode) with imageEnd := addressOf image.length }, ?_,
    ⟨⟨rfl, ?_, small, fun k i hi => ?_⟩, pc, ?_⟩, memory, fun a ha behind => ?_⟩
  · unfold State.load
    rw [if_neg (by simpa [State.ofSize] using room), List.length_map]; rfl
  · exact Nat.le_trans fits (Nat.le_of_eq memory.symm)
  · have stored : ((State.ofSize size).storeAll (addressOf 0) (image.map Instr.encode)).memory.read (addressOf (0 + k)) =
        i.encode := read_storeAll (by rw [List.length_map]; omega) (by rw [List.getElem?_map, hi]; rfl)
    rw [Nat.zero_add] at stored
    exact (congrArg Instr.decode stored).trans (Instr.decode_encode (legal i (List.mem_of_getElem? hi)))
  · show ((State.ofSize size).storeAll (addressOf 0) _).reg .zero = 0
    rw [regs]
    exact reg_ofSize size .zero
  · have outside : ∀ i < (image.map Instr.encode).length, addressOf (0 + i) ≠ a := by
      rintro i hi rfl
      rw [List.length_map] at hi
      rw [toNat_addressOf (by omega)] at behind
      omega
    exact (read_storeAll_of_outside (by rw [List.length_map]; omega) ha outside).trans (Memory.read_empty size a)

end M32.Machine
