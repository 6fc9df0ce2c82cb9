/-
  What the sequence of an unsigned quotient computes.

  1. The divisor is doubled as long as it does not pass the dividend and its highest bit is clear.  After `j` doublings it is
     `D * 2^j`, and a bit `2^j` goes with it (`Scaled`).  The doublings end with a dividend below `D * 2^(j+1)`
     (`Scaled.rounds`).
  2. Then it is halved again down to the divisor itself, and where it can be subtracted from what is left of the dividend its
     bit is put into the quotient (`Divided`).  Each round leaves less than the divisor of its own (`Divided.round`).
  3. `works_divu`: the quotient, all ones if the divisor is zero.  `divu_divides` is the same of the sequence as a whole,
     wherever it is placed.
-/
import M32.Proofs.Pseudo.Product

namespace M32.Machine

/-! ## Tests -/

theorem ne_ofBool (c : Bool) : PairTest.ne.holds (Word.ofBool c) 0 = c := by cases c <;> rfl

theorem eq_ofBool (c : Bool) : PairTest.eq.holds (Word.ofBool c) 0 = !c := by cases c <;> rfl

theorem toInt32_lt_iff (a b : Word) : a.toInt32 < b.toInt32 ↔ a.toInt < b.toInt := Int32.lt_iff_toInt_lt

theorem sltu_eq (a b : Word) : Arith.sltu.apply a b = Word.ofBool (decide (a.toNat < b.toNat)) := by
  show Word.ofBool (decide (a < b)) = _
  congr 1

theorem slt_eq (a b : Word) : Arith.slt.apply a b = Word.ofBool (decide (a.toInt < b.toInt)) := by
  show Word.ofBool (decide (a.toInt32 < b.toInt32)) = _
  congr 1
  exact decide_eq_decide.2 (toInt32_lt_iff a b)

/-- A word is negative if its highest bit is set. -/
theorem toInt_neg_iff (w : Word) : w.toInt < (0 : Word).toInt ↔ 0x80000000 ≤ w.toNat := by
  have lt := w.toNat_lt
  rw [Word.toInt_eq w, show (0 : Word).toInt = 0 from rfl]
  split
  · omega
  · omega

theorem slt_zero (w : Word) : Arith.slt.apply w 0 = Word.ofBool (decide (0x80000000 ≤ w.toNat)) := by
  rw [slt_eq]
  congr 1
  exact decide_eq_decide.2 (toInt_neg_iff w)

theorem toNat_srl_one (w : Word) : (Shift.srl.apply w 1).toNat = w.toNat / 2 := by
  show (w >>> 1).toNat = _
  rw [UInt32.toNat_shiftRight, Nat.shiftRight_eq_div_pow]; rfl

theorem toNat_sll_one {w : Word} (h : w.toNat < 0x80000000) : (Shift.sll.apply w 1).toNat = w.toNat * 2 := by
  show (w <<< 1).toNat = _
  rw [shiftLeft_one, UInt32.toNat_mul]
  show w.toNat * 2 % 2 ^ 32 = _
  omega

section

variable {code : List Instr} {base k : Nat} {s : State} {dst a b : Reg} {before : Reg → Word} {j : Nat}

/-! ## Scaling the divisor -/

/-- The registers after `j` doublings of the divisor. -/
structure Scaled (b : Reg) (before regs : Reg → Word) (j : Nat) : Prop where
  only : Only [b, .k0, .k1, .k2] before regs
  divisor : (regs .k0).toNat = (before b).toNat * 2 ^ j
  bit : (regs .k1).toNat = 2 ^ j
  quotient : regs b = 0

namespace Scaled

/-- The result of a test in `k2` spoils nothing. -/
theorem test (b2 : b ≠ .k2) {regs : Reg → Word} (p : Scaled b before regs j) (w : Word) :
    Scaled b before (setReg regs .k2 w) j :=
  ⟨p.only.set (by simp) _, by rw [setReg_of_ne (by decide), p.divisor], by rw [setReg_of_ne (by decide), p.bit],
    by rw [setReg_of_ne b2, p.quotient]⟩

/-- A divisor with a clear top bit is doubled. -/
theorem doubled (ops : Operands dst a b) (hc : Lies code k (Pseudo.divuInstrs dst a b)) (h : Inside code base (k + 10) s)
    (p : Scaled b before s.reg j) (divisor : 0 < (before b).toNat) (low : (before b).toNat * 2 ^ j < 0x80000000) :
    ∃ t, Works code base s (k + 6) t ∧ Scaled b before t.reg (j + 1) := by
  obtain ⟨b0, b1, -, -⟩ := ops.plain b (by simp)
  obtain ⟨t, ht, regs⟩ := works_straight (c := [.sll .k0 .k0 1, .sll .k1 .k1 1]) h (hc.part 10 ⟨_, rfl⟩) rfl
  obtain ⟨u, hu, same⟩ := works_branch ht.inside (hc.get (j := 12) rfl) (l := k + 6) (by
    rw [ht.inside.zero]
    show ((k + 6 : Nat) : Int) = (k + 12 : Nat) + (-6)
    omega)
  have fits : 2 ^ j ≤ (before b).toNat * 2 ^ j := Nat.le_mul_of_pos_left _ divisor
  refine ⟨u, ht.trans hu, ?_⟩
  rw [same, regs]
  refine ⟨(p.only.set (by simp) _).set (by simp) _, ?_, ?_, ?_⟩
  · rw [setReg_of_ne (by decide), setReg_self (by decide), Nat.pow_succ, ← Nat.mul_assoc, ← p.divisor]
    exact toNat_sll_one (by rw [p.divisor]; omega)
  · rw [setReg_self (by decide), setReg_of_ne (by decide), Nat.pow_succ, ← p.bit]
    exact toNat_sll_one (by rw [p.bit]; omega)
  · rw [setReg_of_ne b1, setReg_of_ne b0, p.quotient]

/-- One round: the doublings end, or the divisor is doubled.  They end when the divisor is above the dividend, or when
    its top bit is set. -/
theorem round (ops : Operands dst a b) (hc : Lies code k (Pseudo.divuInstrs dst a b)) (h : Inside code base (k + 6) s)
    (p : Scaled b before s.reg j) (divisor : 0 < (before b).toNat) :
    (∃ t, Works code base s (k + 13) t ∧ Scaled b before t.reg j ∧ (before a).toNat < (before b).toNat * 2 ^ (j + 1))
    ∨ ∃ t, Works code base s (k + 6) t ∧ Scaled b before t.reg (j + 1) := by
  obtain ⟨a0, a1, a2, -⟩ := ops.plain a (by simp)
  obtain ⟨b0, b1, b2, -⟩ := ops.plain b (by simp)
  have dividend : s.reg a = before a := p.only a (by simp [ops.distinct, a0, a1, a2])
  have twice : (before b).toNat * 2 ^ (j + 1) = (before b).toNat * 2 ^ j * 2 := by rw [Nat.pow_succ, Nat.mul_assoc]
  obtain ⟨t1, h1, r1⟩ := works_one h (hc.get (j := 6) rfl) rfl
  have p1 : Scaled b before t1.reg j := r1 ▸ p.test b2 _
  have test1 : t1.reg .k2 = Word.ofBool (decide ((before a).toNat < (before b).toNat * 2 ^ j)) := by
    rw [r1, setReg_self (by decide), sltu_eq, dividend, p.divisor]
  by_cases below : (before a).toNat < (before b).toNat * 2 ^ j
  · obtain ⟨t2, h2, r2⟩ := works_branch h1.inside (hc.get (j := 7) rfl) (l := k + 13) (by
      rw [test1, h1.inside.zero, ne_ofBool, decide_eq_true below]; rfl)
    exact .inl ⟨t2, h1.trans h2, r2 ▸ p1, by omega⟩
  obtain ⟨t2, h2, r2⟩ := works_branch h1.inside (hc.get (j := 7) rfl) (l := k + 8) (by
    rw [test1, h1.inside.zero, ne_ofBool, decide_eq_false below]; rfl)
  have p2 : Scaled b before t2.reg j := r2 ▸ p1
  obtain ⟨t3, h3, r3⟩ := works_one h2.inside (hc.get (j := 8) rfl) rfl
  have p3 : Scaled b before t3.reg j := r3 ▸ p2.test b2 _
  have test3 : t3.reg .k2 = Word.ofBool (decide (0x80000000 ≤ (before b).toNat * 2 ^ j)) := by
    rw [r3, setReg_self (by decide), h2.inside.zero, slt_zero, p2.divisor]
  have first := h1.trans (h2.trans h3)
  by_cases high : 0x80000000 ≤ (before b).toNat * 2 ^ j
  · obtain ⟨t4, h4, r4⟩ := works_branch h3.inside (hc.get (j := 9) rfl) (l := k + 13) (by
      rw [test3, h3.inside.zero, ne_ofBool, decide_eq_true high]; rfl)
    have lt := (before a).toNat_lt
    exact .inl ⟨t4, first.trans h4, r4 ▸ p3, by omega⟩
  · obtain ⟨t4, h4, r4⟩ := works_branch h3.inside (hc.get (j := 9) rfl) (l := k + 10) (by
      rw [test3, h3.inside.zero, ne_ofBool, decide_eq_false high]; rfl)
    obtain ⟨t5, h5, p5⟩ := doubled ops hc h4.inside (r4 ▸ p3) divisor (Nat.lt_of_not_le high)
    exact .inr ⟨t5, first.trans (h4.trans h5), p5⟩

/-- All rounds. -/
theorem rounds (ops : Operands dst a b) (hc : Lies code k (Pseudo.divuInstrs dst a b)) (h : Inside code base (k + 6) s)
    (p : Scaled b before s.reg j) (divisor : 0 < (before b).toNat) :
    ∃ t i, Works code base s (k + 13) t ∧ Scaled b before t.reg i ∧ (before a).toNat < (before b).toNat * 2 ^ (i + 1) := by
  -- the bit doubles, and it is a word
  have bounded {regs : Reg → Word} {i : Nat} (hp : Scaled b before regs i) : i < 32 := by
    have lt := (regs .k1).toNat_lt
    rw [hp.bit] at lt
    exact (Nat.pow_lt_pow_iff_right (by omega)).1 lt
  obtain ⟨n, hn⟩ : ∃ n, n = 32 - j := ⟨_, rfl⟩
  induction n generalizing j s with
  | zero =>
    have := bounded p
    omega
  | succ n ih =>
    rcases round ops hc h p divisor with ⟨t, ht, p, lt⟩ | ⟨t, ht, p⟩
    · exact ⟨t, j, ht, p, lt⟩
    · obtain ⟨u, i, hu, p, lt⟩ := ih ht.inside p (by omega)
      exact ⟨u, i, ht.trans hu, p, lt⟩

end Scaled

/-! ## Subtracting -/

/-- The registers before the divisor, doubled `j` times, is tried. -/
structure Divided (a b : Reg) (before regs : Reg → Word) (j : Nat) : Prop where
  only : Only [a, b, .k0, .k1, .k2] before regs
  divisor : (regs .k0).toNat = (before b).toNat * 2 ^ j
  bit : (regs .k1).toNat = 2 ^ j
  sum : (regs b).toNat * (before b).toNat + (regs a).toNat = (before a).toNat
  rest : (regs a).toNat < (before b).toNat * 2 ^ (j + 1)
  multiple : 2 ^ (j + 1) ∣ (regs b).toNat

/-- The registers after a subtraction, or without it. -/
structure Tried (a b : Reg) (before regs : Reg → Word) (j : Nat) : Prop where
  only : Only [a, b, .k0, .k1, .k2] before regs
  divisor : (regs .k0).toNat = (before b).toNat * 2 ^ j
  bit : (regs .k1).toNat = 2 ^ j
  sum : (regs b).toNat * (before b).toNat + (regs a).toNat = (before a).toNat
  rest : (regs a).toNat < (before b).toNat * 2 ^ j
  multiple : 2 ^ j ∣ (regs b).toNat

namespace Divided

/-- The divisor is subtracted if it can be. -/
theorem tried (ops : Operands dst a b) (nonzero : b ≠ .zero) (hc : Lies code k (Pseudo.divuInstrs dst a b))
    (h : Inside code base (k + 13) s) (p : Divided a b before s.reg j) :
    ∃ t, Works code base s (k + 17) t ∧ Tried a b before t.reg j := by
  obtain ⟨a0, a1, a2, -⟩ := ops.plain a (by simp)
  obtain ⟨b0, b1, b2, -⟩ := ops.plain b (by simp)
  have twice : (before b).toNat * 2 ^ (j + 1) = (before b).toNat * 2 ^ j * 2 := by rw [Nat.pow_succ, Nat.mul_assoc]
  have rest := p.rest
  have sum := p.sum
  obtain ⟨t1, h1, r1⟩ := works_one h (hc.get (j := 13) rfl) rfl
  have test : t1.reg .k2 = Word.ofBool (decide ((s.reg a).toNat < (before b).toNat * 2 ^ j)) := by
    rw [r1, setReg_self (by decide), sltu_eq, p.divisor]
  have only1 : Only [a, b, .k0, .k1, .k2] before t1.reg := r1 ▸ p.only.set (by simp) _
  have scaled : t1.reg .k0 = s.reg .k0 := by rw [r1, setReg_of_ne (by decide)]
  have bit : t1.reg .k1 = s.reg .k1 := by rw [r1, setReg_of_ne (by decide)]
  have left : t1.reg a = s.reg a := by rw [r1, setReg_of_ne a2]
  have quotient : t1.reg b = s.reg b := by rw [r1, setReg_of_ne b2]
  by_cases below : (s.reg a).toNat < (before b).toNat * 2 ^ j
  · obtain ⟨t2, h2, r2⟩ := works_branch h1.inside (hc.get (j := 14) rfl) (l := k + 17) (by
      rw [test, h1.inside.zero, ne_ofBool, decide_eq_true below]; rfl)
    refine ⟨t2, h1.trans h2, ?_⟩
    rw [r2]
    refine ⟨only1, by rw [scaled, p.divisor], by rw [bit, p.bit], by rw [quotient, left, sum], by rw [left]; exact below, ?_⟩
    rw [quotient]
    exact Nat.dvd_trans (Nat.pow_dvd_pow 2 (Nat.le_succ j)) p.multiple
  · obtain ⟨t2, h2, r2⟩ := works_branch h1.inside (hc.get (j := 14) rfl) (l := k + 15) (by
      rw [test, h1.inside.zero, ne_ofBool, decide_eq_false below]; rfl)
    obtain ⟨t3, h3, r3⟩ := works_straight (c := [.subu a a .k0, .arith .or b b .k1]) h2.inside (hc.part 15 ⟨_, rfl⟩) rfl
    have left3 : (t3.reg a).toNat = (s.reg a).toNat - (before b).toNat * 2 ^ j := by
      rw [r3, setReg_of_ne ops.distinct, setReg_self ops.nonzero]
      show (t2.reg a - t2.reg .k0).toNat = _
      rw [r2, left, scaled, UInt32.toNat_sub_of_le _ _ (UInt32.le_iff_toNat_le.2 (by rw [p.divisor]; omega)), p.divisor]
    have quotient3 : (t3.reg b).toNat = (s.reg b).toNat + 2 ^ j := by
      rw [r3, setReg_self nonzero]
      show (setReg t2.reg a _ b ||| setReg t2.reg a _ .k1).toNat = _
      rw [setReg_of_ne ops.distinct.symm, setReg_of_ne a1.symm, r2, quotient, bit, UInt32.toNat_or, p.bit]
      exact Fields.or_eq_add (j + 1) (Nat.pow_lt_pow_right (by omega) (by omega)) p.multiple
    have shift : ((s.reg b).toNat + 2 ^ j) * (before b).toNat = (s.reg b).toNat * (before b).toNat + (before b).toNat * 2 ^ j := by
      rw [Nat.add_mul, Nat.mul_comm (2 ^ j)]
    refine ⟨t3, h1.trans (h2.trans h3), ?_, ?_, ?_, ?_, ?_, ?_⟩
    · rw [r3, r2]
      exact (only1.set (by simp) _).set (by simp) _
    · rw [r3, setReg_of_ne b0.symm, setReg_of_ne a0.symm, r2, scaled, p.divisor]
    · rw [r3, setReg_of_ne b1.symm, setReg_of_ne a1.symm, r2, bit, p.bit]
    · rw [quotient3, left3, shift]; omega
    · rw [left3]; omega
    · rw [quotient3]
      exact Nat.dvd_add (Nat.dvd_trans (Nat.pow_dvd_pow 2 (Nat.le_succ j)) p.multiple) (Nat.dvd_refl _)

/-- One round: the quotient is complete, or the divisor is halved. -/
theorem round (ops : Operands dst a b) (nonzero : b ≠ .zero) (hc : Lies code k (Pseudo.divuInstrs dst a b))
    (h : Inside code base (k + 13) s) (p : Divided a b before s.reg j) (divisor : 0 < (before b).toNat) :
    match j with
    | 0 => ∃ t, Works code base s (k + 20) t ∧ Only [a, b, .k0, .k1, .k2] before t.reg ∧ t.reg b = before a / before b
    | i + 1 => ∃ t, Works code base s (k + 13) t ∧ Divided a b before t.reg i := by
  obtain ⟨a0, a1, -, -⟩ := ops.plain a (by simp)
  obtain ⟨b0, b1, -, -⟩ := ops.plain b (by simp)
  obtain ⟨t1, h1, p⟩ := tried ops nonzero hc h p
  obtain ⟨t2, h2, r2⟩ := works_straight (c := [.srl .k0 .k0 1, .srl .k1 .k1 1]) h1.inside (hc.part 17 ⟨_, rfl⟩) rfl
  have only2 : Only [a, b, .k0, .k1, .k2] before t2.reg := by
    rw [r2]
    exact (p.only.set (by simp) _).set (by simp) _
  have scaled : (t2.reg .k0).toNat = (before b).toNat * 2 ^ j / 2 := by
    rw [r2, setReg_of_ne (by decide), setReg_self (by decide), ← p.divisor]
    exact toNat_srl_one _
  have bit : (t2.reg .k1).toNat = 2 ^ j / 2 := by
    rw [r2, setReg_self (by decide), setReg_of_ne (by decide), ← p.bit]
    exact toNat_srl_one _
  have left : t2.reg a = t1.reg a := by rw [r2, setReg_of_ne a1, setReg_of_ne a0]
  have quotient : t2.reg b = t1.reg b := by rw [r2, setReg_of_ne b1, setReg_of_ne b0]
  cases j with
  | zero =>
    have done : t2.reg .k1 = 0 := UInt32.toNat_inj.1 (by rw [bit]; rfl)
    obtain ⟨t3, h3, r3⟩ := works_branch h2.inside (hc.get (j := 19) rfl) (l := k + 20) (by
      rw [done, h2.inside.zero]; rfl)
    refine ⟨t3, h1.trans (h2.trans h3), r3 ▸ only2, ?_⟩
    rw [r3, quotient]
    apply UInt32.toNat_inj.1
    have sum := p.sum
    have rest := p.rest
    rw [Nat.pow_zero, Nat.mul_one] at rest
    rw [UInt32.toNat_div, ← sum, Nat.add_comm, Nat.add_mul_div_right _ _ divisor, Nat.div_eq_of_lt rest, Nat.zero_add]
  | succ i =>
    have halved : (before b).toNat * 2 ^ (i + 1) / 2 = (before b).toNat * 2 ^ i := by
      rw [Nat.pow_succ, ← Nat.mul_assoc, Nat.mul_div_cancel _ (by omega)]
    have bit_i : (t2.reg .k1).toNat = 2 ^ i := by rw [bit, Nat.pow_succ, Nat.mul_div_cancel _ (by omega)]
    have more : t2.reg .k1 ≠ 0 := by
      intro zero
      rw [zero] at bit_i
      have := Nat.two_pow_pos i
      have none : (0 : Word).toNat = 0 := rfl
      omega
    obtain ⟨t3, h3, r3⟩ := works_branch h2.inside (hc.get (j := 19) rfl) (l := k + 13) (by
      rw [h2.inside.zero, show PairTest.ne.holds (t2.reg .k1) 0 = true from bne_iff_ne.2 more, if_pos rfl]
      show ((k + 13 : Nat) : Int) = (k + 19 : Nat) + (-6)
      omega)
    refine ⟨t3, h1.trans (h2.trans h3), ?_⟩
    rw [r3]
    exact ⟨only2, by rw [scaled, halved], bit_i, by rw [quotient, left, p.sum], by rw [left]; exact p.rest,
      by rw [quotient]; exact p.multiple⟩

/-- All rounds. -/
theorem rounds (ops : Operands dst a b) (nonzero : b ≠ .zero) (hc : Lies code k (Pseudo.divuInstrs dst a b))
    (h : Inside code base (k + 13) s) (p : Divided a b before s.reg j) (divisor : 0 < (before b).toNat) :
    ∃ t, Works code base s (k + 20) t ∧ Only [a, b, .k0, .k1, .k2] before t.reg ∧ t.reg b = before a / before b := by
  -- on the bit: the round of bit 0 completes the quotient
  induction j generalizing s with
  | zero => exact round ops nonzero hc h p divisor
  | succ i ih =>
    obtain ⟨t, ht, p⟩ := round ops nonzero hc h p divisor
    obtain ⟨u, hu, result⟩ := ih ht.inside p
    exact ⟨u, ht.trans hu, result⟩

end Divided

/-! ## Quotients -/

/-- The quotient of two registers. -/
theorem works_divuInstrs (ops : Operands dst a b) (nonzero : b ≠ .zero) (hc : Lies code k (Pseudo.divuInstrs dst a b))
    (h : Inside code base k s) : ∃ t, Works code base s (k + 21) t ∧ Only [dst, a, b, .k0, .k1, .k2] s.reg t.reg
      ∧ (dst ≠ .zero → t.reg dst = if s.reg b = 0 then 0xFFFFFFFF else s.reg a / s.reg b) := by
  obtain ⟨a0, a1, -, -⟩ := ops.plain a (by simp)
  obtain ⟨b0, b1, -, -⟩ := ops.plain b (by simp)
  obtain ⟨t1, h1, r1⟩ := works_straight (c := [.add .k0 b .zero, .addi .k1 .zero 1, .add b .zero .zero]) h
    (hc.part 0 ⟨_, rfl⟩) rfl
  have scaled : t1.reg .k0 = s.reg b := by
    rw [r1, setReg_of_ne b0.symm, setReg_of_ne (by decide), setReg_self (by decide)]
    show s.reg b + s.reg .zero = _
    rw [h.zero]
    exact UInt32.add_zero _
  have start : Scaled b s.reg t1.reg 0 := by
    refine ⟨?_, by rw [scaled, Nat.pow_zero, Nat.mul_one], ?_, ?_⟩
    · rw [r1]
      exact (((Only.refl _ _).set (by simp) _).set (by simp) _).set (by simp) _
    · rw [r1, setReg_of_ne b1.symm, setReg_self (by decide)]
      show (setReg s.reg .k0 _ .zero + Word.ofImm 1).toNat = _
      rw [setReg_zero h.zero]; rfl
    · rw [r1, setReg_self nonzero]
      show setReg (setReg s.reg .k0 _) .k1 _ .zero + setReg (setReg s.reg .k0 _) .k1 _ .zero = _
      rw [setReg_zero (setReg_zero h.zero _ _)]; rfl
  by_cases zero : s.reg b = 0
  · obtain ⟨t2, h2, r2⟩ := works_branch h1.inside (hc.get (j := 3) rfl) (l := k + 4) (by
      rw [scaled, zero, h1.inside.zero]; rfl)
    obtain ⟨t3, h3, r3⟩ := works_one h2.inside (hc.get (j := 4) rfl) rfl
    obtain ⟨t4, h4, r4⟩ := works_branch h3.inside (hc.get (j := 5) rfl) (l := k + 21) (by
      rw [h3.inside.zero]; rfl)
    refine ⟨t4, h1.trans (h2.trans (h3.trans h4)), ?_, ?_⟩
    · rw [r4, r3, r2]
      exact (start.only.mono (by simp)).set (by simp) _
    · intro hd
      rw [if_pos zero, r4, r3, setReg_self hd]
      show t2.reg .zero + Word.ofImm (-1) = _
      rw [h2.inside.zero]; rfl
  · have divisor : 0 < (s.reg b).toNat := Nat.pos_of_ne_zero fun he => zero (UInt32.toNat_inj.1 he)
    obtain ⟨t2, h2, r2⟩ := works_branch h1.inside (hc.get (j := 3) rfl) (l := k + 6) (by
      rw [scaled, h1.inside.zero, show PairTest.ne.holds (s.reg b) 0 = true from bne_iff_ne.2 zero]; rfl)
    obtain ⟨t3, i, h3, p, lt⟩ := Scaled.rounds ops hc h2.inside (r2 ▸ start) divisor
    have dividend : t3.reg a = s.reg a := p.only a (by simp [ops.distinct, ops.plain a (by simp)])
    have divided : Divided a b s.reg t3.reg i := by
      refine ⟨p.only.mono (by simp), p.divisor, p.bit, ?_, by rw [dividend]; exact lt, ?_⟩
      · rw [p.quotient, dividend]
        show 0 * _ + _ = _
        omega
      · rw [p.quotient]
        exact Nat.dvd_zero _
    obtain ⟨t4, h4, only, quotient⟩ := Divided.rounds ops nonzero hc h3.inside divided divisor
    obtain ⟨t5, h5, r5⟩ := works_one h4.inside (hc.get (j := 20) rfl) rfl
    refine ⟨t5, h1.trans (h2.trans (h3.trans (h4.trans h5))), ?_, ?_⟩
    · rw [r5]
      exact (only.mono (by simp)).set (by simp) _
    · intro hd
      rw [if_neg zero, r5, setReg_self hd]
      show t4.reg b + t4.reg .zero = _
      rw [h4.inside.zero, quotient]
      exact UInt32.add_zero _

theorem operands_divu (h : (Pseudo.divu dst a b).fault? = none) : Operands dst a b ∧ b ≠ .zero := by
  simp only [Pseudo.fault?, Option.or_eq_none_iff] at h
  obtain ⟨⟨scratch, same⟩, zero⟩ := h
  exact ⟨.of_fault? scratch same zero (by simp), nonzero_of_zeroFault? zero (by simp)⟩

/-- The unsigned quotient of two registers. -/
theorem works_divu (h : Inside code base k s) (hc : Lies code k (Pseudo.divu dst a b).instrs)
    (hf : (Pseudo.divu dst a b).fault? = none) : ∃ t, Works code base s (k + 21) t ∧ Only [dst, a, b, .k0, .k1, .k2] s.reg t.reg
      ∧ (dst ≠ .zero → t.reg dst = if s.reg b = 0 then 0xFFFFFFFF else s.reg a / s.reg b) := by
  obtain ⟨ops, nonzero⟩ := operands_divu hf
  exact works_divuInstrs ops nonzero hc h

/-- Wherever a permitted quotient stands, a run from its start comes to the instruction after it, with the quotient in its
    first register, or all ones if the divisor is zero.  Besides, the operands and `k0` to `k2` may change, and nothing
    else. -/
theorem divu_divides (permitted : (Pseudo.divu dst a b).expand = .ok code) (h : Inside code base 0 s) :
    ∃ t, Works code base s code.length t ∧ (∀ r, r ∉ [dst, a, b, .k0, .k1, .k2] → t.reg r = s.reg r) ∧
      (dst ≠ .zero → if s.reg b = 0 then t.reg dst = 0xFFFFFFFF else (t.reg dst).toNat = (s.reg a).toNat / (s.reg b).toNat) := by
  obtain ⟨hf, rfl⟩ := expand_eq_ok permitted
  obtain ⟨t, ht, only, quotient⟩ := works_divu h (.self _) hf
  refine ⟨t, ht, only, ?_⟩
  intro hd
  have value := quotient hd
  by_cases zero : s.reg b = 0
  · rw [if_pos zero] at value ⊢
    exact value
  · rw [if_neg zero] at value ⊢
    rw [value, UInt32.toNat_div]

/-- A quotient of a dividend above the signed words, which takes the place of its divisor. -/
theorem divu_divides_in_place :
    ∃ s t, Inside (Pseudo.divu ⟨2⟩ ⟨1⟩ ⟨2⟩).instrs 5 0 s ∧ s.reg ⟨1⟩ = 0xFFFFFFFF ∧ s.reg ⟨2⟩ = 10 ∧
      Works (Pseudo.divu ⟨2⟩ ⟨1⟩ ⟨2⟩).instrs 5 s 21 t ∧ t.reg ⟨2⟩ = 429496729 ∧ t.reg ⟨3⟩ = 7 := by
  have permitted : (Pseudo.divu ⟨2⟩ ⟨1⟩ ⟨2⟩).expand = .ok (Pseudo.divu ⟨2⟩ ⟨1⟩ ⟨2⟩).instrs := rfl
  let regs : Reg → Word := fun r => if r = ⟨1⟩ then 0xFFFFFFFF else if r = ⟨2⟩ then 10 else if r = ⟨3⟩ then 7 else 0
  obtain ⟨s, inside, contents, -⟩ := exists_inside (Pseudo.divu ⟨2⟩ ⟨1⟩ ⟨2⟩).instrs (by decide) 5 regs rfl (Nat.le_refl _)
    (by decide)
  obtain ⟨t, works, kept, quotient⟩ := divu_divides permitted inside
  have value := quotient (by decide)
  rw [contents, if_neg (by decide)] at value
  refine ⟨s, t, inside, by rw [contents]; rfl, by rw [contents]; rfl, works, ?_, ?_⟩
  · apply UInt32.toNat_inj.1
    rw [value]
    decide +kernel
  · rw [kept ⟨3⟩ (by decide), contents]
    rfl

end

end M32.Machine
