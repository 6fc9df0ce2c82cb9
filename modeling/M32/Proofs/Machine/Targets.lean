/-
  Where steps lead.

  1. `branch?` is how far an instruction may branch, and `branches` are the branches of a sequence, each with its place.
  2. `Goes.leads`: a step leads to the next instruction, or as far as a branch says, or where a jump says, unless the instruction
     takes the address from a register.
-/
import M32.Proofs.Machine.Steps

namespace M32.Machine

variable {code image : List Instr} {k : Nat} {i : Instr} {s t : State}

/-! ## Branches -/

/-- How far an instruction may branch. -/
def branch? : Instr → Option Int
  | .branchZero _ _ offset | .branch _ _ _ offset => some offset.toInt
  | _ => none

/-- The branches of a sequence of instructions, each with its place. -/
def branches (code : List Instr) : List (Nat × Int) := code.zipIdx.filterMap fun (i, k) => (branch? i).map (k, ·)

theorem mem_branches_iff {o : Int} : (k, o) ∈ branches code ↔ ∃ i, code[k]? = some i ∧ branch? i = some o := by
  simp only [branches, List.mem_filterMap, Prod.exists, List.mem_zipIdx_iff_getElem?, Option.map_eq_some_iff, Prod.mk.injEq]
  constructor
  · rintro ⟨i, k, hi, o, ho, rfl, rfl⟩
    exact ⟨i, hi, ho⟩
  · rintro ⟨i, hi, ho⟩
    exact ⟨i, k, hi, o, ho, rfl, rfl⟩

theorem mem_branches_append {a b : List Instr} {o : Int} (h : (k, o) ∈ branches (a ++ b)) :
    (k, o) ∈ branches a ∨ ∃ j, k = a.length + j ∧ (j, o) ∈ branches b := by
  obtain ⟨i, hi, ho⟩ := mem_branches_iff.1 h
  rcases Nat.lt_or_ge k a.length with inside | behind
  · rw [List.getElem?_append_left inside] at hi
    exact .inl (mem_branches_iff.2 ⟨i, hi, ho⟩)
  · rw [List.getElem?_append_right behind] at hi
    exact .inr ⟨k - a.length, by omega, mem_branches_iff.2 ⟨i, hi, ho⟩⟩

/-! ## Steps -/

/-- Whether an instruction goes on at an address that a register holds. -/
def indirect : Instr → Bool
  | .jr _ | .jalr .. | .eret => true
  | _ => false

/-- Where a step leads. -/
theorem Goes.leads (h : Goes s t) (hk : At image k s) (hi : image[k]? = some i) (direct : indirect i = false) :
    t.pc = addressOf (k + 1) ∨ (∃ o, branch? i = some o ∧ ∀ l : Nat, (l : Int) = k + o → t.pc = addressOf l) ∨
      ∃ link w, i = .jump link w ∧ t.pc = w <<< 2 := by
  obtain ⟨_, _, h⟩ := h
  rw [hk.step_eq hi] at h
  have next : s.advance.pc = addressOf (k + 1) := by rw [← addressOf_succ, ← hk.pc]; rfl
  have set (r : Reg) (w : Word) : (s.advance.setReg r w).pc = addressOf (k + 1) := by rw [State.pc_setReg, next]
  -- a branch is taken or not
  have branched (taken : Bool) {o : Int16} (names : branch? i = some o.toInt) :
      (if taken then s.advance.jumpTo (branchTarget s.pc o) else s.advance).pc = addressOf (k + 1) ∨
        ∃ o', branch? i = some o' ∧ ∀ l : Nat, (l : Int) = k + o' →
          (if taken then s.advance.jumpTo (branchTarget s.pc o) else s.advance).pc = addressOf l := by
    cases taken with
    | false => exact .inl next
    | true => exact .inr ⟨_, names, fun l hl => by rw [hk.pc]; exact branchTarget_eq hl⟩
  cases i with
  | jr | jalr | eret => cases direct
  | syscall | halt => cases h
  | shift | shiftBy | arith | mfs | signed | bits | lui =>
    cases h
    exact .inl (set _ _)
  | mts =>
    cases h
    exact .inl next
  | branchZero | branch =>
    cases h
    exact (branched _ rfl).imp_right .inl
  | jump link w =>
    cases link <;> cases h <;> exact .inr (.inr ⟨_, _, rfl, rfl⟩)
  | lw =>
    simp only [State.exec] at h
    split at h
    · next fault =>
      split at fault
      · cases fault
      · cases fault
        cases h
        exact .inl (set _ _)
    · cases h
  | sw =>
    simp only [State.exec] at h
    split at h
    · next fault =>
      split at fault
      · cases fault
      · cases fault
        cases h
        exact .inl next
    · cases h

/-- A step begins at an instruction of the image that memory holds. -/
theorem Goes.placed (h : Goes s t) (holds : Holds image s) (zero : s.reg .zero = 0) : ∃ k, k < image.length ∧ At image k s := by
  obtain ⟨_, _, h⟩ := h
  have small := holds.small
  have last := congrArg UInt32.toNat holds.imageEnd
  rw [toNat_addressOf small] at last
  rw [State.step] at h
  dsimp only at h
  split at h
  · cases h
  · next aligned =>
    split at h
    · cases h
    · split at h
      · cases h
      · next before =>
        rw [ne_eq, Decidable.not_not, ← UInt32.toNat_inj, UInt32.toNat_mod] at aligned
        replace aligned : s.pc.toNat % 4 = 0 := aligned
        rw [UInt32.le_iff_toNat_le, last] at before
        refine ⟨s.pc.toNat / 4, by omega, holds, ?_, zero⟩
        rw [addressOf, Nat.mul_div_cancel' (Nat.dvd_of_mod_eq_zero aligned), UInt32.ofNat_toNat]

end M32.Machine
