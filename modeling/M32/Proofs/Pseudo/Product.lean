/-
  What the sequences of loads and of products compute.

  1. `works_gpr`: a load puts its value into its register.
  2. `works_mul`: a product goes through the bits of the second factor, from the lowest.  Before bit `j` the mask is
     `2^j`, the first factor has been doubled `j` times, and the sum is the product with the low `j` bits of
     the second factor (`Product`).  `Product.round` is one bit: the bit is taken out, the first factor is added if it is
     set, and first factor and mask are doubled.  `Product.rounds` is all of them.
  3. `mul_multiplies`: the same of the sequence as a whole, wherever it is placed.
-/
import M32.Proofs.Instr.Words
import M32.Proofs.Machine.Computing
import M32.Pseudo
import Mathlib.Data.Nat.Bitwise

namespace M32.Machine

open Pseudo (scratchFault? sameFault? zeroFault?)

/-! ## Registers that change -/

/-- Whether no registers but some changed. -/
def Only (changed : List Reg) (before after : Reg → Word) : Prop := ∀ r, r ∉ changed → after r = before r

namespace Only

variable {changed : List Reg} {f g h : Reg → Word}

theorem refl (changed : List Reg) (f : Reg → Word) : Only changed f f := fun _ _ => rfl

theorem trans (fg : Only changed f g) (gh : Only changed g h) : Only changed f h := fun r hr => by rw [gh r hr, fg r hr]

theorem mono {more : List Reg} (fg : Only changed f g) (sub : ∀ r ∈ changed, r ∈ more) : Only more f g :=
  fun r hr => fg r fun hc => hr (sub r hc)

theorem set (fg : Only changed f g) {r : Reg} (hr : r ∈ changed) (w : Word) : Only changed f (setReg g r w) := by
  intro q hq
  have ne : q ≠ r := fun he => hq (he ▸ hr)
  rw [setReg_of_ne ne, fg q hq]

end Only

/-! ## Loads -/

theorem setReg_setReg (regs : Reg → Word) (r : Reg) (u w : Word) : setReg (setReg regs r u) r w = setReg regs r w := by
  funext q
  unfold setReg
  split
  · rfl
  · split <;> rfl

/-- A word from its halves. -/
theorem halves (w : Word) : (w >>> 16).toUInt16.toUInt32 <<< 16 ||| w.toUInt16.toUInt32 = w := by
  have hw := w.toNat_lt
  apply UInt32.toNat_inj.1
  have low : w.toUInt16.toUInt32.toNat = w.toNat % 2 ^ 16 := by rw [UInt16.toNat_toUInt32, UInt32.toNat_toUInt16]
  have high : ((w >>> 16).toUInt16.toUInt32 <<< 16).toNat = w.toNat / 2 ^ 16 * 2 ^ 16 := by
    rw [UInt32.toNat_shiftLeft, UInt16.toNat_toUInt32, UInt32.toNat_toUInt16, UInt32.toNat_shiftRight]
    show (w.toNat >>> 16 % 65536) <<< 16 % 4294967296 = _
    rw [Nat.shiftRight_eq_div_pow, Nat.shiftLeft_eq]; omega
  rw [UInt32.toNat_or, low, high, Fields.or_eq_add 16 (by omega) (by omega)]; omega

section

variable {code : List Instr} {base k : Nat} {s : State}

/-- A load puts its value into its register. -/
theorem computedAll?_gpr (r : Reg) (w : Word) (ty : Scalar) (regs : Reg → Word) :
    computedAll? (Pseudo.gpr r w ty).instrs regs = some (setReg regs r w) := by
  show some (setReg (setReg regs r _) r _) = _
  rw [setReg_setReg]
  by_cases hr : r = .zero
  · subst hr; rfl
  · rw [setReg_self hr]
    congr 2
    exact halves w

theorem works_gpr {r : Reg} {w : Word} {ty : Scalar} (h : Inside code base k s) (hc : Lies code k (Pseudo.gpr r w ty).instrs) :
    ∃ t, Works code base s (k + 2) t ∧ t.reg = setReg s.reg r w := works_straight h hc (computedAll?_gpr r w ty s.reg)

theorem computes_gpr {image : List Instr} {r : Reg} {w : Word} {ty : Scalar} (h : At image k s)
    (hc : Lies image k (Pseudo.gpr r w ty).instrs) : ∃ t, Computes image s (k + 2) t ∧ t.reg = setReg s.reg r w :=
  computes_of_works h (works_gpr h.inside hc)

/-! ## Products -/

theorem shiftLeft_one (w : Word) : w <<< 1 = w * 2 := by
  apply UInt32.toNat_inj.1
  rw [UInt32.toNat_shiftLeft, UInt32.toNat_mul, Nat.shiftLeft_eq]; rfl

/-- The bits of a word that a power of two keeps. -/
theorem and_twoPow (b : Word) {j : Nat} (hj : j < 32) :
    b &&& UInt32.ofNat (2 ^ j) = if b.toNat.testBit j then UInt32.ofNat (2 ^ j) else 0 := by
  have lt : 2 ^ j < 2 ^ 32 := Nat.pow_lt_pow_right (by omega) hj
  have pow : (UInt32.ofNat (2 ^ j)).toNat = 2 ^ j := by rw [UInt32.toNat_ofNat', Nat.mod_eq_of_lt lt]
  apply UInt32.toNat_inj.1
  rw [UInt32.toNat_and, pow, Nat.and_two_pow]
  cases b.toNat.testBit j with
  | false => simp
  | true => simp [pow]

theorem twoPow_ne_zero {j : Nat} (hj : j < 32) : UInt32.ofNat (2 ^ j) ≠ 0 := by
  have lt : 2 ^ j < 2 ^ 32 := Nat.pow_lt_pow_right (by omega) hj
  intro h
  have pow : (UInt32.ofNat (2 ^ j)).toNat = 2 ^ j := by rw [UInt32.toNat_ofNat', Nat.mod_eq_of_lt lt]
  rw [h] at pow
  have := Nat.two_pow_pos j
  have zero : (0 : Word).toNat = 0 := rfl
  omega

theorem twoPow_succ (j : Nat) : UInt32.ofNat (2 ^ j) * 2 = UInt32.ofNat (2 ^ (j + 1)) := by
  rw [Nat.pow_succ, UInt32.ofNat_mul]; rfl

/-- The registers before bit `j` of the second factor. -/
structure Product (a b : Reg) (before regs : Reg → Word) (j : Nat) : Prop where
  only : Only [a, .k0, .k1, .k2] before regs
  mask : regs .k0 = UInt32.ofNat (2 ^ j)
  factor : regs a = before a * UInt32.ofNat (2 ^ j)
  sum : regs .k1 = before a * UInt32.ofNat ((before b).toNat % 2 ^ j)

theorem mod_twoPow_succ (n j : Nat) : n % 2 ^ (j + 1) = if n.testBit j then n % 2 ^ j + 2 ^ j else n % 2 ^ j := by
  rw [Nat.mod_pow_succ, Nat.testBit_eq_decide_div_mod_eq]
  by_cases h : n / 2 ^ j % 2 = 1
  · rw [h, if_pos (by simp), Nat.mul_one]
  · rw [show n / 2 ^ j % 2 = 0 by omega, if_neg (by simp), Nat.mul_zero, Nat.add_zero]

/-- The registers that the sequences of products and quotients may take as operands. -/
structure Operands (dst a b : Reg) : Prop where
  distinct : a ≠ b
  nonzero : a ≠ .zero
  plain : ∀ r ∈ [dst, a, b], r ≠ .k0 ∧ r ≠ .k1 ∧ r ≠ .k2 ∧ r ≠ .k3

/-- The registers after the sum of bit `j` of the second factor, before the doubling. -/
structure Summed (a b : Reg) (before regs : Reg → Word) (j : Nat) : Prop where
  only : Only [a, .k0, .k1, .k2] before regs
  mask : regs .k0 = UInt32.ofNat (2 ^ j)
  factor : regs a = before a * UInt32.ofNat (2 ^ j)
  sum : regs .k1 = before a * UInt32.ofNat ((before b).toNat % 2 ^ (j + 1))

namespace Product

variable {dst a b : Reg} {before : Reg → Word} {j : Nat}

/-- The mask takes a bit out of the second factor. -/
theorem bit (ops : Operands dst a b) (hc : Lies code k (Pseudo.mul dst a b).instrs) (h : Inside code base (k + 2) s)
    (p : Product a b before s.reg j) (hj : j < 32) :
    ∃ t, Works code base s (k + 3) t ∧ Product a b before t.reg j ∧
      t.reg .k2 = if (before b).toNat.testBit j then UInt32.ofNat (2 ^ j) else 0 := by
  obtain ⟨-, -, a2, -⟩ := ops.plain a (by simp)
  obtain ⟨b0, b1, b2, -⟩ := ops.plain b (by simp)
  have factor_b : s.reg b = before b := p.only b (by simp [ops.distinct.symm, b0, b1, b2])
  obtain ⟨t, ht, regs⟩ := works_one h (hc.get (j := 2) rfl) rfl
  refine ⟨t, ht, ⟨?_, ?_, ?_, ?_⟩, ?_⟩
  · rw [regs]
    exact p.only.set (by simp) _
  · rw [regs, setReg_of_ne (by decide), p.mask]
  · rw [regs, setReg_of_ne a2, p.factor]
  · rw [regs, setReg_of_ne (by decide), p.sum]
  · rw [regs, setReg_self (by decide), ← and_twoPow _ hj, ← factor_b, ← p.mask]; rfl

/-- The first factor is added if the bit is set. -/
theorem summed (ops : Operands dst a b) (hc : Lies code k (Pseudo.mul dst a b).instrs) (h : Inside code base (k + 3) s)
    (p : Product a b before s.reg j) (hj : j < 32)
    (bit : s.reg .k2 = if (before b).toNat.testBit j then UInt32.ofNat (2 ^ j) else 0) :
    ∃ t, Works code base s (k + 5) t ∧ Summed a b before t.reg j := by
  obtain ⟨-, a1, -, -⟩ := ops.plain a (by simp)
  by_cases set : (before b).toNat.testBit j = true
  · have taken : PairTest.eq.holds (s.reg .k2) (s.reg .zero) = false := by
      rw [bit, if_pos set, h.zero]
      exact beq_eq_false_iff_ne.2 (twoPow_ne_zero hj)
    obtain ⟨t, ht, same⟩ := works_branch h (hc.get (j := 3) rfl) (l := k + 4) (by rw [taken]; rfl)
    obtain ⟨u, hu, regs⟩ := works_one ht.inside (hc.get (j := 4) rfl) rfl
    refine ⟨u, ht.trans hu, ?_, ?_, ?_, ?_⟩
    · rw [regs, same]
      exact p.only.set (by simp) _
    · rw [regs, same, setReg_of_ne (by decide), p.mask]
    · rw [regs, same, setReg_of_ne a1, p.factor]
    · rw [regs, same, setReg_self (by decide), mod_twoPow_succ, if_pos set, UInt32.ofNat_add, UInt32.mul_add]
      show s.reg .k1 + s.reg a = _
      rw [p.sum, p.factor]
  · have taken : PairTest.eq.holds (s.reg .k2) (s.reg .zero) = true := by
      rw [bit, if_neg set, h.zero]; rfl
    obtain ⟨t, ht, same⟩ := works_branch h (hc.get (j := 3) rfl) (l := k + 5) (by rw [taken]; rfl)
    refine ⟨t, ht, ?_, ?_, ?_, ?_⟩
    · rw [same]
      exact p.only
    · rw [same, p.mask]
    · rw [same, p.factor]
    · rw [same, p.sum, mod_twoPow_succ, if_neg set]

/-- First factor and mask are doubled. -/
theorem doubled (ops : Operands dst a b) (hc : Lies code k (Pseudo.mul dst a b).instrs) (h : Inside code base (k + 5) s)
    (p : Summed a b before s.reg j) : ∃ t, Works code base s (k + 7) t ∧ Product a b before t.reg (j + 1) := by
  obtain ⟨a0, a1, -, -⟩ := ops.plain a (by simp)
  obtain ⟨t, ht, regs⟩ := works_straight (c := [.sll a a 1, .sll .k0 .k0 1]) h (hc.part 5 ⟨_, rfl⟩) rfl
  refine ⟨t, ht, ?_, ?_, ?_, ?_⟩
  · rw [regs]
    exact (p.only.set (by simp) _).set (by simp) _
  · rw [regs, setReg_self (by decide)]
    show setReg s.reg a _ .k0 <<< 1 = _
    rw [setReg_of_ne a0.symm, p.mask, shiftLeft_one, twoPow_succ]
  · rw [regs, setReg_of_ne a0, setReg_self ops.nonzero]
    show s.reg a <<< 1 = _
    rw [p.factor, shiftLeft_one, UInt32.mul_assoc, twoPow_succ]
  · rw [regs, setReg_of_ne (by decide), setReg_of_ne a1.symm, p.sum]

/-- The loop goes on until the mask has left the word. -/
theorem next (hc : Lies code k (Pseudo.mul dst a b).instrs) (h : Inside code base (k + 7) s)
    (mask : s.reg .k0 = UInt32.ofNat (2 ^ j)) (hj : j ≤ 32) :
    ∃ t, Works code base s (if j < 32 then k + 2 else k + 9) t ∧ t.reg = s.reg := by
  by_cases more : j < 32
  · have taken : PairTest.eq.holds (s.reg .k0) (s.reg .zero) = false := by
      rw [mask, h.zero]
      exact beq_eq_false_iff_ne.2 (twoPow_ne_zero more)
    obtain ⟨t, ht, same⟩ := works_branch h (hc.get (j := 7) rfl) (l := k + 8) (by rw [taken]; rfl)
    obtain ⟨u, hu, same'⟩ := works_branch ht.inside (hc.get (j := 8) rfl) (l := k + 2) (by
      rw [ht.inside.zero]
      show ((k + 2 : Nat) : Int) = (k + 8 : Nat) + (-6)
      omega)
    rw [if_pos more]
    exact ⟨u, ht.trans hu, same'.trans same⟩
  · obtain rfl : j = 32 := by omega
    have taken : PairTest.eq.holds (s.reg .k0) (s.reg .zero) = true := by
      rw [mask, h.zero]; rfl
    rw [if_neg more]
    exact works_branch h (hc.get (j := 7) rfl) (l := k + 9) (by rw [taken]; rfl)

/-- One bit of the second factor. -/
theorem round (ops : Operands dst a b) (hc : Lies code k (Pseudo.mul dst a b).instrs) (h : Inside code base (k + 2) s)
    (p : Product a b before s.reg j) (hj : j < 32) :
    ∃ t, Works code base s (if j + 1 < 32 then k + 2 else k + 9) t ∧ Product a b before t.reg (j + 1) := by
  obtain ⟨t1, h1, p1, bit⟩ := p.bit ops hc h hj
  obtain ⟨t2, h2, p2⟩ := p1.summed ops hc h1.inside hj bit
  obtain ⟨t3, h3, p3⟩ := doubled ops hc h2.inside p2
  obtain ⟨t4, h4, same⟩ := next hc h3.inside p3.mask hj
  exact ⟨t4, h1.trans (h2.trans (h3.trans h4)), same ▸ p3⟩

/-- All bits of the second factor. -/
theorem rounds (ops : Operands dst a b) (hc : Lies code k (Pseudo.mul dst a b).instrs) (h : Inside code base (k + 2) s)
    (p : Product a b before s.reg j) (hj : j < 32) : ∃ t, Works code base s (k + 9) t ∧ Product a b before t.reg 32 := by
  obtain ⟨n, hn⟩ : ∃ n, j + n + 1 = 32 := ⟨31 - j, by omega⟩
  -- on the bits that are left after this round
  induction n generalizing j s with
  | zero =>
    obtain ⟨t, ht, p⟩ := round ops hc h p hj
    rw [if_neg (by omega)] at ht
    rw [show j + 1 = 32 by omega] at p
    exact ⟨t, ht, p⟩
  | succ n ih =>
    obtain ⟨t, ht, p⟩ := round ops hc h p hj
    rw [if_pos (by omega)] at ht
    obtain ⟨u, hu, p⟩ := ih ht.inside p (by omega) (by omega)
    exact ⟨u, ht.trans hu, p⟩

end Product

theorem nonzero_of_zeroFault? {name : String} {written : List Reg} {r : Reg} (h : zeroFault? name written = none)
    (hr : r ∈ written) : r ≠ .zero := by
  simp only [zeroFault?, Option.map_eq_none_iff, List.find?_eq_none] at h
  rintro rfl
  exact h _ hr (by simp)

theorem Operands.of_fault? {dst a b : Reg} {name : String} {written : List Reg} (scratch : scratchFault? name [dst, a, b] = none)
    (same : sameFault? name a b = none) (zero : zeroFault? name written = none) (ha : a ∈ written) : Operands dst a b := by
  refine ⟨?_, nonzero_of_zeroFault? zero ha, ?_⟩
  · rintro rfl
    simp [sameFault?] at same
  · intro r hr
    simp only [scratchFault?, Option.map_eq_none_iff, List.find?_eq_none] at scratch
    have plain := scratch r hr
    refine ⟨?_, ?_, ?_, ?_⟩
    all_goals
      rintro rfl
      exact plain rfl

theorem operands_mul {dst a b : Reg} (h : (Pseudo.mul dst a b).fault? = none) : Operands dst a b := by
  simp only [Pseudo.fault?, Option.or_eq_none_iff] at h
  obtain ⟨⟨scratch, same⟩, zero⟩ := h
  exact .of_fault? scratch same zero (by simp)

/-- The product of two registers. -/
theorem works_mul {dst a b : Reg} (h : Inside code base k s) (hc : Lies code k (Pseudo.mul dst a b).instrs)
    (hf : (Pseudo.mul dst a b).fault? = none) :
    ∃ t, Works code base s (k + 10) t ∧ Only [dst, a, .k0, .k1, .k2] s.reg t.reg ∧ (dst ≠ .zero → t.reg dst = s.reg a * s.reg b) := by
  have ops := operands_mul hf
  obtain ⟨a0, a1, a2, -⟩ := ops.plain a (by simp)
  obtain ⟨t1, h1, r1⟩ := works_straight (c := [.add .k1 .zero .zero, .addi .k0 .zero 1]) h (hc.part 0 ⟨_, rfl⟩) rfl
  have start : Product a b s.reg t1.reg 0 := by
    refine ⟨?_, ?_, ?_, ?_⟩
    · rw [r1]
      exact ((Only.refl _ _).set (by simp) _).set (by simp) _
    · rw [r1, setReg_self (by decide), setReg_of_ne (by decide)]
      show s.reg .zero + Word.ofImm 1 = _
      rw [h.zero]; rfl
    · rw [r1, setReg_of_ne a0, setReg_of_ne a1, Nat.pow_zero]
      exact (UInt32.mul_one _).symm
    · rw [r1, setReg_of_ne (by decide), setReg_self (by decide), Nat.pow_zero, Nat.mod_one]
      show s.reg .zero + s.reg .zero = _
      rw [h.zero]
      exact (UInt32.mul_zero).symm
  obtain ⟨t2, h2, p⟩ := Product.rounds ops hc h1.inside start (by omega)
  obtain ⟨t3, h3, r3⟩ := works_one h2.inside (hc.get (j := 9) rfl) rfl
  refine ⟨t3, h1.trans (h2.trans h3), ?_, ?_⟩
  · rw [r3]
    exact (p.only.mono (by simp)).set (by simp) _
  · intro hd
    have small : (s.reg b).toNat % 2 ^ 32 = (s.reg b).toNat := Nat.mod_eq_of_lt (s.reg b).toNat_lt
    rw [r3, setReg_self hd]
    show t2.reg .k1 + t2.reg .zero = _
    rw [h2.inside.zero, p.sum, small, UInt32.ofNat_toNat]
    exact UInt32.add_zero _

/-- The instructions of a pseudo-instruction that is permitted. -/
theorem expand_eq_ok {p : Pseudo} (h : p.expand = .ok code) : p.fault? = none ∧ code = p.instrs := by
  unfold Pseudo.expand at h
  split at h
  · cases h
  · next none =>
    cases h
    exact ⟨none, rfl⟩

/-- Wherever a permitted product stands, a run from its start comes to the instruction after it, with the low word of the
    product in its first register.  Besides, the first factor and `k0` to `k2` may change, and nothing else. -/
theorem mul_multiplies {dst a b : Reg} (permitted : (Pseudo.mul dst a b).expand = .ok code) (h : Inside code base 0 s) :
    ∃ t, Works code base s code.length t ∧ (∀ r, r ∉ [dst, a, .k0, .k1, .k2] → t.reg r = s.reg r) ∧
      (dst ≠ .zero → (t.reg dst).toNat = (s.reg a).toNat * (s.reg b).toNat % 2 ^ 32) := by
  obtain ⟨hf, rfl⟩ := expand_eq_ok permitted
  obtain ⟨t, ht, only, product⟩ := works_mul h (.self _) hf
  refine ⟨t, ht, only, ?_⟩
  intro hd
  rw [product hd, UInt32.toNat_mul]

/-- A product that does not fit a word and takes the place of its first factor. -/
theorem mul_multiplies_in_place :
    ∃ s t, Inside (Pseudo.mul ⟨1⟩ ⟨1⟩ ⟨2⟩).instrs 5 0 s ∧ s.reg ⟨1⟩ = 0x80000003 ∧ s.reg ⟨2⟩ = 0xFFFFFFFF ∧
      Works (Pseudo.mul ⟨1⟩ ⟨1⟩ ⟨2⟩).instrs 5 s 10 t ∧ t.reg ⟨1⟩ = 0x7FFFFFFD ∧ t.reg ⟨2⟩ = 0xFFFFFFFF := by
  have permitted : (Pseudo.mul ⟨1⟩ ⟨1⟩ ⟨2⟩).expand = .ok (Pseudo.mul ⟨1⟩ ⟨1⟩ ⟨2⟩).instrs := rfl
  let regs : Reg → Word := fun r => if r = ⟨1⟩ then 0x80000003 else if r = ⟨2⟩ then 0xFFFFFFFF else 0
  obtain ⟨s, inside, contents, -⟩ := exists_inside (Pseudo.mul ⟨1⟩ ⟨1⟩ ⟨2⟩).instrs (by decide) 5 regs rfl (Nat.le_refl _)
    (by decide)
  obtain ⟨t, works, kept, product⟩ := mul_multiplies permitted inside
  refine ⟨s, t, inside, by rw [contents]; rfl, by rw [contents]; rfl, works, ?_, ?_⟩
  · apply UInt32.toNat_inj.1
    rw [product (by decide), contents]
    decide +kernel
  · rw [kept ⟨2⟩ (by decide), contents]
    rfl

end

end M32.Machine
