/-
  The code of loops and branches.

  1. Distances that fit their field give a branch, and others a fault.
  2. `whileCode_eq`, `ifThenCode_eq` and `ifElseCode_eq` say what the code is in terms of that of the parts, and which fault
     there is if there is one.
  3. Code that is produced is that of the parts with branches in between (`whileCode_eq_ok`, `ifThenCode_eq_ok`,
     `ifElseCode_eq_ok`).
-/
import M32.Proofs.Lang.Code.Pieces

namespace M32.Lang

variable {body other : Emit Unit} {site : Site} {cond : Expr} {p : RegPool} {r : Emitted Unit} {reg : Reg} {i : Instr}

/-! ## Distances -/

theorem branchIfZero_eq_ok {skip : Nat} (h : branchIfZero reg skip = .ok i) :
    skip < branchLimit ∧ i = .beq reg .zero (Int16.ofNat skip) := by
  unfold branchIfZero at h
  split at h
  · next fits =>
    cases h
    exact ⟨fits, rfl⟩
  · cases h

theorem jumpBack_eq_ok {back : Nat} (h : jumpBack back = .ok i) :
    back < branchLimit ∧ i = .beq .zero .zero (-Int16.ofNat back) := by
  unfold jumpBack at h
  split at h
  · next fits =>
    cases h
    exact ⟨fits, rfl⟩
  · cases h

theorem branchIfZero_eq_error {skip : Nat} (h : branchLimit ≤ skip) : branchIfZero reg skip = .error (.branchTooFar skip) :=
  if_neg (Nat.not_lt.2 h)

theorem jumpBack_eq_error {back : Nat} (h : branchLimit ≤ back) : jumpBack back = .error (.branchTooFar back) :=
  if_neg (Nat.not_lt.2 h)

theorem toInt_neg_ofNat {n : Nat} (h : n < branchLimit) : (-Int16.ofNat n).toInt = -n := by
  rw [Int16.toInt_neg, Int16.toInt_ofNat_of_lt h]
  simp only [branchLimit] at h
  exact Int.bmod_eq_of_le (by omega) (by omega)

/-! ## The code of the parts -/

theorem whileCode_eq : whileCode site cond body p = do
    let a ← condCode site cond p
    let b ← body (a.pool.retain a.value)
    let out ← branchIfZero a.value (codeSize b.code + 2)
    let back ← jumpBack (codeSize a.code + codeSize b.code + 1)
    return ⟨(), a.code ++ .instr out :: b.code ++ [.instr back], b.pool.unretain a.value⟩ := by
  simp only [whileCode, Emit.capture_bind, Emit.captureRetaining_bind, Emit.ofExcept_bind]; rfl

theorem ifThenCode_eq : ifThenCode site cond body p = do
    let a ← condCode site cond p
    let b ← body (a.pool.retain a.value)
    let past ← branchIfZero a.value (codeSize b.code + 1)
    return ⟨(), a.code ++ .instr past :: b.code, b.pool.unretain a.value⟩ := by
  simp only [ifThenCode, Emit.capture_bind, Emit.captureRetaining_bind, Emit.ofExcept_bind]; rfl

theorem ifElseCode_eq : ifElseCode site cond body other p = do
    let a ← condCode site cond p
    let b ← body (a.pool.retain a.value)
    let d ← other (b.pool.unretain a.value)
    let past ← jumpForward (codeSize d.code + 1)
    let around ← branchIfZero a.value (codeSize b.code + 2)
    return ⟨(), a.code ++ .instr around :: b.code ++ .instr past :: d.code, d.pool⟩ := by
  simp only [ifElseCode, Emit.capture_bind, Emit.captureRetaining_bind, Emit.ofExcept_bind]; rfl

/-! ## Code that is produced -/

theorem whileCode_eq_ok (h : whileCode site cond body p = .ok r) : ∃ a b, condCode site cond p = .ok a ∧
    body (a.pool.retain a.value) = .ok b ∧ codeSize b.code + 2 < branchLimit ∧
      codeSize a.code + codeSize b.code + 1 < branchLimit ∧
        r.code = a.code ++ .instr (.beq a.value .zero (Int16.ofNat (codeSize b.code + 2))) :: (b.code ++
          [.instr (.beq .zero .zero (-Int16.ofNat (codeSize a.code + codeSize b.code + 1)))]) := by
  simp only [whileCode, Emit.bind_eq_ok_iff, Emit.capture_eq_ok_iff, Emit.captureRetaining_eq_ok_iff, Emit.ofExcept_eq_ok_iff,
    Emit.lines_eq_ok_iff] at h
  obtain ⟨_, _, ⟨a, ha, rfl⟩, ⟨_, _, ⟨b, hb, rfl⟩, ⟨_, _, ⟨out, ho, rfl⟩, ⟨_, _, ⟨back, hj, rfl⟩, rfl, rfl⟩, rfl⟩, rfl⟩, rfl⟩ := h
  obtain ⟨small, rfl⟩ := branchIfZero_eq_ok ho
  obtain ⟨small', rfl⟩ := jumpBack_eq_ok hj
  exact ⟨a, b, ha, hb, small, small', List.append_assoc _ _ _⟩

theorem ifThenCode_eq_ok (h : ifThenCode site cond body p = .ok r) : ∃ a b, condCode site cond p = .ok a ∧
    body (a.pool.retain a.value) = .ok b ∧ codeSize b.code + 1 < branchLimit ∧
      r.code = a.code ++ .instr (.beq a.value .zero (Int16.ofNat (codeSize b.code + 1))) :: b.code := by
  simp only [ifThenCode, Emit.bind_eq_ok_iff, Emit.capture_eq_ok_iff, Emit.captureRetaining_eq_ok_iff, Emit.ofExcept_eq_ok_iff,
    Emit.lines_eq_ok_iff] at h
  obtain ⟨_, _, ⟨a, ha, rfl⟩, ⟨_, _, ⟨b, hb, rfl⟩, ⟨_, _, ⟨past, hp, rfl⟩, rfl, rfl⟩, rfl⟩, rfl⟩ := h
  obtain ⟨small, rfl⟩ := branchIfZero_eq_ok hp
  exact ⟨a, b, ha, hb, small, rfl⟩

theorem ifElseCode_eq_ok (h : ifElseCode site cond body other p = .ok r) : ∃ a b d, condCode site cond p = .ok a ∧
    body (a.pool.retain a.value) = .ok b ∧ other (b.pool.unretain a.value) = .ok d ∧ codeSize b.code + 2 < branchLimit ∧
      codeSize d.code + 1 < branchLimit ∧
        r.code = a.code ++ .instr (.beq a.value .zero (Int16.ofNat (codeSize b.code + 2))) :: (b.code ++
          .instr (.beq .zero .zero (Int16.ofNat (codeSize d.code + 1))) :: d.code) := by
  simp only [ifElseCode, Emit.bind_eq_ok_iff, Emit.capture_eq_ok_iff, Emit.captureRetaining_eq_ok_iff, Emit.ofExcept_eq_ok_iff,
    Emit.lines_eq_ok_iff] at h
  obtain ⟨_, _, ⟨a, ha, rfl⟩, ⟨_, _, ⟨b, hb, rfl⟩, ⟨_, _, ⟨d, hd, rfl⟩, ⟨_, _, ⟨past, hp, rfl⟩, ⟨_, _, ⟨around, hr, rfl⟩, rfl, rfl⟩,
    rfl⟩, rfl⟩, rfl⟩, rfl⟩ := h
  obtain ⟨small, rfl⟩ := branchIfZero_eq_ok hp
  obtain ⟨small', rfl⟩ := branchIfZero_eq_ok hr
  exact ⟨a, b, d, ha, hb, hd, small', small, List.append_assoc _ _ _⟩

end M32.Lang
