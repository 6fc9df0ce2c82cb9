/-
  What the sequence of a signed quotient computes.

  The magnitudes of both operands are divided without signs (`works_magnitude`), and the quotient is negated if the
  operands differ in sign, which the highest bit of their exclusive or tells (`xor_neg_iff`).  `works_divt` puts these
  together, and `divt_divides` is the same of the sequence as a whole, wherever it is placed.
-/
import M32.Proofs.Pseudo.Quotient

namespace M32

/-! ## Magnitudes -/

namespace Word

/-- The word of a magnitude. -/
def magnitude (w : Word) : Word := if w.toInt < 0 then -w else w

theorem toNat_magnitude (w : Word) : w.magnitude.toNat = w.toInt.natAbs := by
  have lt := w.toNat_lt
  rw [magnitude]
  by_cases neg : w.toInt < 0
  · rw [if_pos neg, UInt32.toNat_neg, show UInt32.size = 0x100000000 from rfl]
    rw [toInt_eq] at neg ⊢
    split at neg
    · omega
    · rw [if_neg (by omega)]; omega
  · rw [if_neg neg]
    rw [toInt_eq] at neg ⊢
    split at neg
    · rw [if_pos (by omega)]; omega
    · omega

theorem magnitude_eq_zero_iff (w : Word) : w.magnitude = 0 ↔ w = 0 := by
  have zero : (0 : Word).toNat = 0 := rfl
  have back : w.toInt = 0 → w = 0 := fun h => by rw [← ofInt_toInt w, h]; rfl
  rw [← UInt32.toNat_inj, toNat_magnitude, zero, Int.natAbs_eq_zero]
  refine ⟨back, ?_⟩
  rintro rfl
  rfl

/-- An exclusive or is negative if the signs differ. -/
theorem xor_neg_iff (a b : Word) : (a ^^^ b).toInt < 0 ↔ (a.toInt < 0 ↔ ¬ b.toInt < 0) := by
  have msb (w : Word) : w.toBitVec.msb = decide (w.toInt < 0) := BitVec.msb_eq_toInt
  have xor : (a ^^^ b).toBitVec.msb = (a.toBitVec.msb ^^ b.toBitVec.msb) := by
    rw [UInt32.toBitVec_xor, BitVec.msb_xor]
  rw [msb, msb, msb] at xor
  by_cases ha : a.toInt < 0
  · by_cases hb : b.toInt < 0
    · simp [ha, hb] at xor ⊢; omega
    · simp [ha, hb] at xor ⊢; omega
  · by_cases hb : b.toInt < 0
    · simp [ha, hb] at xor ⊢; omega
    · simp [ha, hb] at xor ⊢; omega

/-- A quotient toward zero from the quotient of the magnitudes. -/
theorem ofInt_tdiv (a b : Word) :
    ofInt (a.toInt.tdiv b.toInt) = if (a ^^^ b).toInt < 0 then -(a.magnitude / b.magnitude) else a.magnitude / b.magnitude := by
  have quotient : a.magnitude / b.magnitude = ofInt ((a.toInt.natAbs / b.toInt.natAbs : Nat) : Int) := by
    rw [ofInt_natCast, ← toNat_magnitude, ← toNat_magnitude, ← UInt32.toNat_div, UInt32.ofNat_toNat]
  rw [quotient, ← ofInt_neg]
  have ha := Int.natAbs_eq a.toInt
  have hb := Int.natAbs_eq b.toInt
  by_cases differ : (a ^^^ b).toInt < 0
  · rw [if_pos differ]
    congr 1
    have signs := (xor_neg_iff a b).1 differ
    by_cases neg : a.toInt < 0
    · have ha : a.toInt = -(a.toInt.natAbs : Int) := by omega
      have hb : b.toInt = (b.toInt.natAbs : Int) := by omega
      rw [ha, hb, Int.neg_tdiv, Int.natAbs_neg]
      rfl
    · have ha : a.toInt = (a.toInt.natAbs : Int) := by omega
      have hb : b.toInt = -(b.toInt.natAbs : Int) := by omega
      rw [ha, hb, Int.tdiv_neg, Int.natAbs_neg]
      rfl
  · rw [if_neg differ]
    congr 1
    have signs := mt (xor_neg_iff a b).2 differ
    by_cases neg : a.toInt < 0
    · have ha : a.toInt = -(a.toInt.natAbs : Int) := by omega
      have hb : b.toInt = -(b.toInt.natAbs : Int) := by omega
      rw [ha, hb, Int.neg_tdiv, Int.tdiv_neg, Int.neg_neg, Int.natAbs_neg, Int.natAbs_neg]
      rfl
    · have ha : a.toInt = (a.toInt.natAbs : Int) := by omega
      have hb : b.toInt = (b.toInt.natAbs : Int) := by omega
      rw [ha, hb]
      rfl

theorem complement_add_one (w : Word) : ~~~w + 1 = -w := by
  apply UInt32.eq_of_toBitVec_eq
  rw [UInt32.toBitVec_add, UInt32.toBitVec_not, UInt32.toBitVec_neg, BitVec.neg_eq_not_add]; rfl

end Word

namespace Machine

section

variable {code : List Instr} {base k : Nat} {s : State} {dst a b r : Reg}

/-- A register is replaced by its magnitude. -/
theorem works_magnitude (hr : r ≠ .zero) (r2 : r ≠ .k2) (h : Inside code base k s)
    (hc : Lies code k [.slt .k2 r .zero, .beq .k2 .zero 2, .subu r .zero r]) :
    ∃ t, Works code base s (k + 3) t ∧ Only [r, .k2] s.reg t.reg ∧ t.reg r = (s.reg r).magnitude := by
  obtain ⟨t1, h1, r1⟩ := works_one h hc.head rfl
  have test : t1.reg .k2 = Word.ofBool (decide ((s.reg r).toInt < 0)) := by
    rw [r1, setReg_self (by decide), slt_eq, h.zero]; rfl
  have kept : t1.reg r = s.reg r := by rw [r1, setReg_of_ne r2]
  have only : Only [r, .k2] s.reg t1.reg := r1 ▸ (Only.refl _ _).set (by simp) _
  by_cases neg : (s.reg r).toInt < 0
  · obtain ⟨t2, h2, e2⟩ := works_branch h1.inside hc.tail.head (l := k + 2) (by
      rw [test, h1.inside.zero, eq_ofBool, decide_eq_true neg]; rfl)
    obtain ⟨t3, h3, r3⟩ := works_one h2.inside hc.tail.tail.head rfl
    refine ⟨t3, h1.trans (h2.trans h3), ?_, ?_⟩
    · rw [r3, e2]
      exact only.set (by simp) _
    · rw [r3, setReg_self hr, Word.magnitude, if_pos neg]
      show t2.reg .zero - t2.reg r = _
      rw [h2.inside.zero, e2, kept]
      exact UInt32.zero_sub _
  · obtain ⟨t2, h2, e2⟩ := works_branch h1.inside hc.tail.head (l := k + 3) (by
      rw [test, h1.inside.zero, eq_ofBool, decide_eq_false neg]; rfl)
    exact ⟨t2, h1.trans h2, e2 ▸ only, by rw [e2, kept, Word.magnitude, if_neg neg]⟩

/-- A register is negated if another one is negative. -/
theorem works_negate (h : Inside code base k s)
    (hc : Lies code k [.slt .k3 .k3 .zero, .beq .k3 .zero 3, .arith .nor dst dst .zero, .addi dst dst 1]) (d3 : dst ≠ .k3) :
    ∃ t, Works code base s (k + 4) t ∧ Only [dst, .k3] s.reg t.reg
      ∧ (dst ≠ .zero → t.reg dst = if (s.reg .k3).toInt < 0 then -s.reg dst else s.reg dst) := by
  obtain ⟨t1, h1, r1⟩ := works_one h hc.head rfl
  have test : t1.reg .k3 = Word.ofBool (decide ((s.reg .k3).toInt < 0)) := by
    rw [r1, setReg_self (by decide), slt_eq, h.zero]; rfl
  have kept : t1.reg dst = s.reg dst := by rw [r1, setReg_of_ne d3]
  have only : Only [dst, .k3] s.reg t1.reg := r1 ▸ (Only.refl _ _).set (by simp) _
  by_cases neg : (s.reg .k3).toInt < 0
  · obtain ⟨t2, h2, e2⟩ := works_branch h1.inside hc.tail.head (l := k + 2) (by
      rw [test, h1.inside.zero, eq_ofBool, decide_eq_true neg]; rfl)
    obtain ⟨t3, h3, r3⟩ := works_straight h2.inside hc.tail.tail rfl
    refine ⟨t3, h1.trans (h2.trans h3), ?_, ?_⟩
    · rw [r3, e2]
      exact (only.set (by simp) _).set (by simp) _
    · intro hd
      rw [r3, setReg_self hd, if_pos neg, ← kept, ← e2, ← Word.complement_add_one]
      show setReg t2.reg dst (~~~(t2.reg dst ||| t2.reg .zero)) dst + Word.ofImm 1 = _
      rw [setReg_self hd, h2.inside.zero, UInt32.or_zero]; rfl
  · obtain ⟨t2, h2, e2⟩ := works_branch h1.inside hc.tail.head (l := k + 4) (by
      rw [test, h1.inside.zero, eq_ofBool, decide_eq_false neg]; rfl)
    exact ⟨t2, h1.trans h2, e2 ▸ only, fun _ => by rw [e2, kept, if_neg neg]⟩

theorem operands_divt (h : (Pseudo.divt dst a b).fault? = none) : Operands dst a b ∧ b ≠ .zero := by
  simp only [Pseudo.fault?, Option.or_eq_none_iff] at h
  obtain ⟨⟨scratch, same⟩, zero⟩ := h
  exact ⟨.of_fault? scratch same zero (by simp), nonzero_of_zeroFault? zero (by simp)⟩

/-- The signed quotient of two registers. -/
theorem works_divt (h : Inside code base k s) (hc : Lies code k (Pseudo.divt dst a b).instrs)
    (hf : (Pseudo.divt dst a b).fault? = none) : ∃ t, Works code base s (k + 35) t ∧ Only [dst, a, b, .k0, .k1, .k2, .k3] s.reg t.reg
      ∧ (dst ≠ .zero → t.reg dst = if s.reg b = 0 then 0xFFFFFFFF else Word.ofInt ((s.reg a).toInt.tdiv (s.reg b).toInt)) := by
  obtain ⟨ops, nonzero⟩ := operands_divt hf
  obtain ⟨-, -, -, d3⟩ := ops.plain dst (by simp)
  obtain ⟨-, -, a2, a3⟩ := ops.plain a (by simp)
  obtain ⟨-, -, b2, b3⟩ := ops.plain b (by simp)
  by_cases zero : s.reg b = 0
  · obtain ⟨t1, h1, r1⟩ := works_branch h (hc.get (j := 0) rfl) (l := k + 1) (by
      rw [zero, h.zero]; rfl)
    obtain ⟨t2, h2, r2⟩ := works_one h1.inside (hc.get (j := 1) rfl) rfl
    obtain ⟨t3, h3, r3⟩ := works_branch h2.inside (hc.get (j := 2) rfl) (l := k + 35) (by
      rw [h2.inside.zero]; rfl)
    refine ⟨t3, h1.trans (h2.trans h3), ?_, ?_⟩
    · rw [r3, r2, r1]
      exact (Only.refl _ _).set (by simp) _
    · intro hd
      rw [if_pos zero, r3, r2, setReg_self hd]
      show t1.reg .zero + Word.ofImm (-1) = _
      rw [h1.inside.zero]; rfl
  · obtain ⟨t1, h1, r1⟩ := works_branch h (hc.get (j := 0) rfl) (l := k + 3) (by
      rw [h.zero, show PairTest.ne.holds (s.reg b) 0 = true from bne_iff_ne.2 zero]; rfl)
    obtain ⟨t2, h2, r2⟩ := works_one h1.inside (hc.get (j := 3) rfl) rfl
    obtain ⟨t3, h3, only3, left⟩ := works_magnitude ops.nonzero a2 h2.inside (hc.part 4 ⟨_, rfl⟩)
    obtain ⟨t4, h4, only4, right⟩ := works_magnitude nonzero b2 h3.inside (hc.part 7 ⟨_, rfl⟩)
    obtain ⟨t5, h5, only5, quotient⟩ := works_divuInstrs ops nonzero (hc.part 10 ⟨_, rfl⟩) h4.inside
    obtain ⟨t6, h6, only6, result⟩ := works_negate h5.inside (hc.part 31 ⟨_, rfl⟩) d3
    refine ⟨t6, h1.trans (h2.trans (h3.trans (h4.trans (h5.trans h6)))), ?_, ?_⟩
    · have all : Only [dst, a, b, .k0, .k1, .k2, .k3] s.reg t2.reg := by
        rw [r2, r1]
        exact (Only.refl _ _).set (by simp) _
      exact all.trans ((only3.mono (by simp)).trans ((only4.mono (by simp)).trans ((only5.mono (by simp)).trans
        (only6.mono (by simp)))))
    · intro hd
      have sign : t5.reg .k3 = s.reg a ^^^ s.reg b := by
        rw [only5 .k3 (by simp [d3.symm, a3.symm, b3.symm]; decide), only4 .k3 (by simp [b3.symm]; decide),
          only3 .k3 (by simp [a3.symm]; decide), r2, setReg_self (by decide), r1]; rfl
      have dividend : t4.reg a = (s.reg a).magnitude := by
        rw [only4 a (by simp [ops.distinct, a2]), left, r2, setReg_of_ne a3, r1]
      have divisor : t4.reg b = (s.reg b).magnitude := by
        rw [right, only3 b (by simp [ops.distinct.symm, b2]), r2, setReg_of_ne b3, r1]
      rw [result hd, quotient hd, sign, dividend, divisor, if_neg zero, if_neg (mt (Word.magnitude_eq_zero_iff _).1 zero),
        Word.ofInt_tdiv]

/-- Wherever a permitted signed quotient stands, a run from its start comes to the instruction after it, with the quotient
    toward zero in its first register, or -1 if the divisor is zero.  Besides, the operands and `k0` to `k3` may change, and
    nothing else. -/
theorem divt_divides {code : List Instr} (permitted : (Pseudo.divt dst a b).expand = .ok code) (h : Inside code base 0 s) :
    ∃ t, Works code base s code.length t ∧ (∀ r, r ∉ [dst, a, b, .k0, .k1, .k2, .k3] → t.reg r = s.reg r) ∧
      (dst ≠ .zero →
        t.reg dst = Word.ofInt (if s.reg b = 0 then -1 else (s.reg a).toInt.tdiv (s.reg b).toInt)) := by
  obtain ⟨hf, rfl⟩ := expand_eq_ok permitted
  obtain ⟨t, ht, only, quotient⟩ := works_divt h (.self _) hf
  refine ⟨t, ht, only, ?_⟩
  intro hd
  rw [quotient hd]
  by_cases zero : s.reg b = 0
  · rw [if_pos zero, if_pos zero]
    rfl
  · rw [if_neg zero, if_neg zero]

/-- The quotient of the least word and -1 is the least word again. -/
theorem divt_divides_least :
    ∃ s t, Inside (Pseudo.divt ⟨1⟩ ⟨1⟩ ⟨2⟩).instrs 5 0 s ∧ (s.reg ⟨1⟩).toInt = -2147483648 ∧ (s.reg ⟨2⟩).toInt = -1 ∧
      Works (Pseudo.divt ⟨1⟩ ⟨1⟩ ⟨2⟩).instrs 5 s 35 t ∧ (t.reg ⟨1⟩).toInt = -2147483648 ∧ t.reg ⟨3⟩ = 7 := by
  have permitted : (Pseudo.divt ⟨1⟩ ⟨1⟩ ⟨2⟩).expand = .ok (Pseudo.divt ⟨1⟩ ⟨1⟩ ⟨2⟩).instrs := rfl
  let regs : Reg → Word := fun r => if r = ⟨1⟩ then 0x80000000 else if r = ⟨2⟩ then 0xFFFFFFFF else if r = ⟨3⟩ then 7 else 0
  obtain ⟨s, inside, contents, -⟩ := exists_inside (Pseudo.divt ⟨1⟩ ⟨1⟩ ⟨2⟩).instrs (by decide) 5 regs rfl (Nat.le_refl _)
    (by decide)
  obtain ⟨t, works, kept, quotient⟩ := divt_divides permitted inside
  have value := quotient (by decide)
  rw [contents, if_neg (by decide)] at value
  refine ⟨s, t, inside, by rw [contents]; rfl, by rw [contents]; rfl, works, ?_, ?_⟩
  · rw [value]
    decide +kernel
  · rw [kept ⟨3⟩ (by decide), contents]
    rfl

end

end Machine

end M32
