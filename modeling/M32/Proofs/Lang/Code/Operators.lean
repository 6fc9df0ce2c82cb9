/-
  What the code of operators computes.

  1. `arrives_offsetCode` is for sums of a register and a number, `arrives_scaleCode` for products of an index and a size.
  2. `arrives_applyCode`: an operator on two registers leaves its word for the two words in the first of them.
  3. `arrives_unaryCode`: an operator on one register leaves its word there.
-/
import M32.Proofs.Lang.Code.Arrives
import M32.Proofs.Lang.Code.Emitted
import M32.Proofs.Lang.Code.Registers
import M32.Proofs.Lang.Found
import M32.Proofs.Pseudo.SignedQuotient

namespace M32.Lang

open Machine

variable {m : Linked} {base : Nat} {p : RegPool} {s : State} {site : Site}

/-- The registers that the code of an operator may change, besides its operands. -/
def scratch : List Reg := [.k0, .k1, .k2, .k3]

theorem not_guards_scratch (p : RegPool) : ∀ r ∈ scratch, ¬ p.Guards r := by
  intro r hr h
  have plain := h.1
  simp only [scratch, List.mem_cons, List.not_mem_nil, or_false] at hr
  rcases hr with rfl | rfl | rfl | rfl <;> cases plain

/-! ## Sums and products of addresses -/

theorem arrives_offsetCode {dst source : Reg} {offset : Int} {post : Unit → RegPool → State → Prop} (hd : dst ≠ .zero)
    (hs : source ≠ .k1) (h : ∀ t : State, t.memory = s.memory → Only [dst, .k1] s.reg t.reg →
      t.reg dst = s.reg source + Word.ofInt offset → post () p t) : (offsetCode dst source offset).Arrives m base p s post := by
  refine .ite (fun fits => .instr rfl fun t memory regs => h t memory ?_ ?_) fun _ => ?_
  · rw [regs]
    exact (Only.refl _ _).set (by simp) _
  · rw [regs, setReg_self hd, Word.ofImm_ofInt fits]; rfl
  · refine .seq (.gpr fun t memory regs => ?_)
    refine .instr rfl fun u memory' regs' => h u (memory'.trans memory) ?_ ?_
    · rw [regs', regs]
      exact ((Only.refl _ _).set (by simp) _).set (by simp) _
    · rw [regs', setReg_self hd]
      show t.reg source + t.reg .k1 = _
      rw [regs, setReg_of_ne hs, setReg_self (by decide)]

theorem shiftLeft_log2 {size : Nat} (small : size < addressSpace) (pow : 1 <<< size.log2 = size) (w : Word) :
    w <<< (UInt8.ofNat size.log2).toUInt32 = w * UInt32.ofNat size := by
  have bits := log2_lt small
  have amount : (UInt8.ofNat size.log2).toUInt32.toNat = size.log2 := by
    rw [UInt8.toNat_toUInt32, UInt8.toNat_ofNat']
    exact Nat.mod_eq_of_lt (by omega)
  apply UInt32.toNat_inj.1
  have fits : (UInt32.ofNat size).toNat = size := by
    rw [UInt32.toNat_ofNat']
    exact Nat.mod_eq_of_lt small
  rw [UInt32.toNat_shiftLeft, amount, Nat.mod_eq_of_lt bits, UInt32.toNat_mul, fits, Nat.shiftLeft_eq, ← Nat.one_shiftLeft, pow]

/-- The index is multiplied where it is.  Another factor than a power of two takes a register that is given back. -/
theorem arrives_scaleCode {i : Reg} {size : Nat} {post : Unit → RegPool → State → Prop} (small : size < addressSpace)
    (sound : p.Sound) (hi : i ∈ RegPool.lent) (used : p.isUsed i = true)
    (h : ∀ t : State, t.memory = s.memory → (∀ q, p.Guards q → q ≠ i → t.reg q = s.reg q) →
      t.reg i = s.reg i * UInt32.ofNat size → post () p t) :
    (scaleCode site i size).Arrives m base p s post := by
  have i0 : i ≠ .zero := RegPool.ne_of_mem_lent hi RegPool.zero_notMem_lent
  refine .ite (fun pow => .ite (fun one => .pure ?_) fun _ => ?_) fun _ => ?_
  · have size_one : size = 1 := by
      rw [one] at pow
      exact pow.symm
    refine h s rfl (fun _ _ _ => rfl) ?_
    rw [size_one]
    exact (UInt32.mul_one _).symm
  · refine .instr rfl fun t memory regs => h t memory (fun q _ ne => ?_) ?_
    · rw [regs, setReg_of_ne ne]
    · rw [regs, setReg_self i0]
      exact shiftLeft_log2 small pow _
  · refine .seq (.acquire fun r q taken => ?_)
    have ne : i ≠ r := by
      rintro rfl
      have unused := taken.unused
      rw [used] at unused
      cases unused
    refine .seq (.gpr fun t memory regs => ?_)
    have product : ∀ k, Inside m.image base k t → Lies m.image k (Pseudo.mul i i r).instrs → (Pseudo.mul i i r).fault? = none →
        ∃ u, Works m.image base t (k + 10) u ∧ Only [i, i, .k0, .k1, .k2] t.reg u.reg ∧ u.reg i = t.reg i * t.reg r := by
      intro k hk hl hf
      obtain ⟨u, hu, only, product⟩ := works_mul hk hl hf
      exact ⟨u, hu, only, product i0⟩
    refine .seq (.pseudo product fun u memory' ⟨only, product⟩ => ?_)
    refine .registers ?_
    rw [taken.pool, RegPool.release_acquired sound taken.unused]
    refine h u (memory'.trans memory) (fun q guarded other => ?_) ?_
    · have plain : q ∉ [i, i, .k0, .k1, .k2] := by
        have hs := mt (not_guards_scratch p q) (not_not_intro guarded)
        simp only [scratch, List.mem_cons, List.not_mem_nil, or_false, not_or] at hs
        simp [other, hs]
      have apart : q ≠ r := by
        rintro rfl
        exact taken.not_guards guarded
      rw [only q plain, regs, setReg_of_ne apart]
    · rw [product, regs, setReg_of_ne ne, setReg_self taken.nonzero]

/-! ## Operators with two operands -/

/-- Instructions that set a register to whether it differs from another. -/
def differInstrs (a b : Reg) : List Instr := [.arith .xor a a b, .beq a .zero 2, .addi a .zero 1]

theorem arrives_differ {a b : Reg} (is : List Instr) {regs : Reg → Word} {post : Unit → RegPool → State → Prop} (ha : a ≠ .zero)
    (hr : computedAll? is (setReg s.reg a (Word.ofBool (s.reg a != s.reg b))) = some regs)
    (h : ∀ t : State, t.memory = s.memory → t.reg = regs → post () p t) :
    (Emit.lines ((differInstrs a b ++ is).map .instr)).Arrives m base p s post := by
  refine .instrs (differInstrs a b ++ is) (fun k hk hc => ?_) h
  obtain ⟨t1, h1, r1⟩ := works_one hk hc.head rfl
  -- the two words are equal if no bit is left
  have differ : ∃ t, Works m.image base t1 (k + 3) t ∧ t.reg = setReg s.reg a (Word.ofBool (s.reg a != s.reg b)) := by
    by_cases same : s.reg a = s.reg b
    · have zero : t1.reg a = 0 := by
        rw [r1, setReg_self ha, same]
        exact UInt32.xor_self
      obtain ⟨t2, h2, r2⟩ := works_branch h1.inside hc.tail.head (l := k + 3) (by
        rw [zero, h1.inside.zero]; rfl)
      refine ⟨t2, h2, ?_⟩
      rw [r2, r1, same, bne_self_eq_false]
      exact congrArg (setReg s.reg a) UInt32.xor_self
    · have nonzero : t1.reg a ≠ 0 := by
        rw [r1, setReg_self ha]
        exact fun hz => same (UInt32.xor_eq_zero_iff.1 hz)
      obtain ⟨t2, h2, r2⟩ := works_branch h1.inside hc.tail.head (l := k + 2) (by
        rw [h1.inside.zero, show PairTest.eq.holds (t1.reg a) 0 = false from beq_eq_false_iff_ne.2 nonzero]; rfl)
      obtain ⟨t3, h3, r3⟩ := works_one h2.inside hc.tail.tail.head rfl
      refine ⟨t3, h2.trans h3, ?_⟩
      rw [r3, h2.inside.zero, r2, r1, setReg_setReg, bne_iff_ne.2 same]; rfl
  obtain ⟨t2, h2, r2⟩ := differ
  obtain ⟨t3, h3, r3⟩ := works_straight h2.inside hc.tail.tail.tail (by rw [r2]; exact hr)
  refine ⟨t3, ?_, r3⟩
  rw [List.length_append, ← Nat.add_assoc]
  exact h1.trans (h2.trans h3)

theorem computed_lessInstr (ty : Ty) (dst x y : Reg) (regs : Reg → Word) :
    computed? (lessInstr ty dst x y) regs = some (setReg regs dst (Word.ofBool (isLess ty (regs x) (regs y)))) := by
  unfold lessInstr isLess
  split
  · exact congrArg (fun w => some (setReg regs dst w)) (slt_eq _ _)
  · exact congrArg (fun w => some (setReg regs dst w)) (sltu_eq _ _)

theorem ofBool_xor_one (b : Bool) : Word.ofBool b ^^^ 1 = Word.ofBool (!b) := by cases b <;> rfl

/-- A comparison, perhaps with the opposite result. -/
theorem arrives_less {ty : Ty} {a x y : Reg} {post : Unit → RegPool → State → Prop} (ha : a ≠ .zero)
    (h : ∀ t : State, t.memory = s.memory →
      t.reg = setReg s.reg a (Word.ofBool (!isLess ty (s.reg x) (s.reg y))) → post () p t) :
    (Emit.lines [.instr (lessInstr ty a x y), .instr (.xori a a 1)]).Arrives m base p s post := by
  refine .straight [lessInstr ty a x y, .xori a a 1] ?_ h
  rw [computedAll?, computed_lessInstr]
  show some (setReg (setReg s.reg a _) a (setReg s.reg a _ a ^^^ 1)) = _
  rw [setReg_setReg, setReg_self ha, ofBool_xor_one]

/-- The word of an operator takes the place of its left operand. -/
theorem arrives_applyCode {op : BinaryOp} {ty : Ty} {a b : Reg} {post : Unit → RegPool → State → Prop} (ha : a ≠ .zero)
    (h : ∀ t : State, t.memory = s.memory → Only (a :: b :: scratch) s.reg t.reg →
      t.reg a = op.word ty (s.reg a) (s.reg b) → post () p t) :
    (applyCode op ty a b).Arrives m base p s post := by
  have set (t : State) (memory : t.memory = s.memory) (regs : t.reg = setReg s.reg a (op.word ty (s.reg a) (s.reg b))) :
      post () p t := by
    refine h t memory ?_ ?_
    · rw [regs]
      exact (Only.refl _ _).set (by simp) _
    · rw [regs, setReg_self ha]
  cases op with
  | add => exact .instr rfl set
  | sub => exact .instr rfl set
  | lt => exact .instr (computed_lessInstr _ _ _ _ _) set
  | gt => exact .instr (computed_lessInstr _ _ _ _ _) set
  | le => exact arrives_less ha set
  | ge => exact arrives_less ha set
  | ne => exact arrives_differ [] ha rfl set
  | eq =>
    refine arrives_differ [.xori a a 1] ha ?_ set
    show some (setReg (setReg s.reg a _) a (setReg s.reg a _ a ^^^ 1)) = _
    rw [setReg_setReg, setReg_self ha, ofBool_xor_one, bne, Bool.not_not]
    rfl
  | and =>
    refine .instr rfl fun t memory regs => set t memory ?_
    rw [regs, BinaryOp.word_and]; rfl
  | or =>
    refine .instr rfl fun t memory regs => set t memory ?_
    rw [regs, BinaryOp.word_or]; rfl
  | mul =>
    refine .pseudo (fun k hk hl hf => works_mul hk hl hf) fun t memory ⟨only, product⟩ => h t memory ?_ (product ha)
    exact only.mono (by simp [scratch])
  | div =>
    have value : BinaryOp.div.word ty (s.reg a) (s.reg b) = quotient ty (s.reg a) (s.reg b) := rfl
    rw [value] at h
    unfold quotient at h
    rw [applyCode]
    split
    · next signed =>
      refine .pseudo (fun k hk hl hf => works_divt hk hl hf) fun t memory ⟨only, result⟩ => h t memory ?_ ?_
      · exact only.mono (by simp [scratch])
      · rw [result ha, if_pos signed]
    · next unsigned =>
      refine .pseudo (fun k hk hl hf => works_divu hk hl hf) fun t memory ⟨only, result⟩ => h t memory ?_ ?_
      · exact only.mono (by simp [scratch])
      · rw [result ha, if_neg unsigned]

/-! ## Operators with one operand -/

theorem add_neg_one (w : Word) : w + Word.ofImm (-1) = w - 1 := by
  rw [UInt32.sub_eq_add_neg]; rfl

/-- The word of an operator takes the place of its operand. -/
theorem arrives_unaryCode {op : UnaryOp} {v : Value} {post : Value → RegPool → State → Prop} (hv : v.reg ≠ .zero)
    (h : ∀ t : State, t.memory = s.memory → t.reg = setReg s.reg v.reg (op.word (s.reg v.reg)) → post v p t) :
    (unaryCode site op v).Arrives m base p s post := by
  cases op with
  | not =>
    refine .of_zero fun zero => .seq (.ofExcept fun _ _ => .seq ?_)
    refine .straight [.addi v.reg v.reg (-1), .slt v.reg v.reg .zero] rfl fun t memory regs => .pure (h t memory ?_)
    rw [regs, setReg_setReg, UnaryOp.word_not]
    show setReg s.reg v.reg (Arith.slt.apply (setReg s.reg v.reg (s.reg v.reg + Word.ofImm (-1)) v.reg)
      (setReg s.reg v.reg (s.reg v.reg + Word.ofImm (-1)) .zero)) = _
    rw [setReg_self hv, setReg_of_ne hv.symm, zero, slt_eq, add_neg_one]
    rfl
  | neg =>
    refine .of_zero fun zero => .seq (.ofExcept fun _ _ => .seq (.instr rfl fun t memory regs => .pure (h t memory ?_)))
    rw [regs, zero]
    exact congrArg (setReg s.reg v.reg) (UInt32.zero_sub _)

end M32.Lang
