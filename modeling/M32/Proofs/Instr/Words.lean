/-
  Instruction words are read back.

  1. `toNat_pick`: a field of a word as a quotient and a remainder.
  2. `toNat_toWord_r`, `toNat_toWord_i`, `toNat_toWord_j`: the word of fields in range, as a sum.  Each field starts where the
     one below it ends, so nothing is carried from one to the next.
  3. `ofWord_toWord`: fields in range are taken out of their word again.
  4. `decode_encode`: a legal instruction is decoded from its word.
-/
import M32.Instr
import Mathlib.Data.Nat.Bitwise

namespace M32

/-! ## Fields as numbers -/

namespace Fields

/-- The bits that a mask of `2^k - 1` keeps, from bit `n`. -/
theorem toNat_pick {w mask shift : Word} {k n : Nat} (hm : mask.toNat = 2 ^ k - 1) (hk : k ≤ 8) (hn : shift.toNat = n)
    (n32 : n < 32) : (pick w mask shift).toNat = w.toNat / 2 ^ n % 2 ^ k := by
  have small : 2 ^ k ≤ 2 ^ 8 := Nat.pow_le_pow_right (by omega) hk
  have shifted : n % 32 = n := Nat.mod_eq_of_lt n32
  rw [pick, UInt32.toNat_toUInt8, UInt32.toNat_and, UInt32.toNat_shiftRight, hm, hn, shifted, Nat.shiftRight_eq_div_pow,
    Nat.and_two_pow_sub_one_eq_mod]
  have := Nat.mod_lt (w.toNat / 2 ^ n) (Nat.two_pow_pos k)
  exact Nat.mod_eq_of_lt (by omega)

/-- A field in range, moved up to bit `n`. -/
theorem toNat_place {f : UInt8} {mask shift : Word} {k n : Nat} (hm : mask.toNat = 2 ^ k - 1) (hf : f.toNat < 2 ^ k)
    (hn : shift.toNat = n) (fits : n + k ≤ 32) (n32 : n < 32) : (place f mask shift).toNat = f.toNat * 2 ^ n := by
  have shifted : n % 32 = n := Nat.mod_eq_of_lt n32
  have small : f.toNat * 2 ^ n < 2 ^ 32 := by
    calc f.toNat * 2 ^ n < 2 ^ k * 2 ^ n := Nat.mul_lt_mul_of_pos_right hf (Nat.two_pow_pos n)
      _ = 2 ^ (n + k) := by rw [← Nat.pow_add, Nat.add_comm]
      _ ≤ 2 ^ 32 := Nat.pow_le_pow_right (by omega) fits
  rw [place, UInt32.toNat_shiftLeft, UInt32.toNat_and, UInt8.toNat_toUInt32, hm, Nat.and_two_pow_sub_one_eq_mod,
    Nat.mod_eq_of_lt hf, hn, shifted, Nat.shiftLeft_eq, Nat.mod_eq_of_lt small]

/-- Numbers without a bit in common are joined by adding them. -/
theorem or_eq_add {a b : Nat} (n : Nat) (hb : b < 2 ^ n) (ha : 2 ^ n ∣ a) : a ||| b = a + b := by
  obtain ⟨q, rfl⟩ := ha
  rw [Nat.two_pow_add_eq_or_of_lt hb]

/-- Fields that fit their places. -/
def IsProper : Fields → Prop
  | r opcode rs rt rd amount funct =>
    (opcode = 0x00 ∨ opcode = 0x10) ∧ rs.toNat < 32 ∧ rt.toNat < 32 ∧ rd.toNat < 32 ∧ amount.toNat < 32 ∧ funct.toNat < 64
  | i opcode rs rt _ =>
    opcode.toNat < 64 ∧ opcode ≠ 0x00 ∧ opcode ≠ 0x10 ∧ opcode ≠ 0x02 ∧ opcode ≠ 0x03 ∧ rs.toNat < 32 ∧ rt.toNat < 32
  | j opcode index => (opcode = 0x02 ∨ opcode = 0x03) ∧ index.toNat < 0x4000000

theorem toNat_toWord_r {opcode rs rt rd amount funct : UInt8} (h : (r opcode rs rt rd amount funct).IsProper) :
    (r opcode rs rt rd amount funct).toWord.toNat = opcode.toNat * 2 ^ 26 + rs.toNat * 2 ^ 21 + rt.toNat * 2 ^ 16
      + rd.toNat * 2 ^ 11 + amount.toNat * 2 ^ 6 + funct.toNat := by
  obtain ⟨ho, hs, ht, hd, ha, hf⟩ := h
  have ho : opcode.toNat < 2 ^ 6 := by
    rcases ho with rfl | rfl
    · decide
    · decide
  have hop : (place opcode 0x3F 26).toNat = opcode.toNat * 2 ^ 26 := toNat_place (k := 6) rfl ho rfl (by omega) (by omega)
  have hrs : (place rs 0x1F 21).toNat = rs.toNat * 2 ^ 21 := toNat_place (k := 5) rfl hs rfl (by omega) (by omega)
  have hrt : (place rt 0x1F 16).toNat = rt.toNat * 2 ^ 16 := toNat_place (k := 5) rfl ht rfl (by omega) (by omega)
  have hrd : (place rd 0x1F 11).toNat = rd.toNat * 2 ^ 11 := toNat_place (k := 5) rfl hd rfl (by omega) (by omega)
  have ham : (place amount 0x1F 6).toNat = amount.toNat * 2 ^ 6 := toNat_place (k := 5) rfl ha rfl (by omega) (by omega)
  have hfn : (place funct 0x3F 0).toNat = funct.toNat * 2 ^ 0 := toNat_place (k := 6) rfl hf rfl (by omega) (by omega)
  simp only [toWord, UInt32.toNat_or, hop, hrs, hrt, hrd, ham, hfn, Nat.pow_zero, Nat.mul_one]
  rw [or_eq_add 26 (a := opcode.toNat * 2 ^ 26) (by omega) (by omega), or_eq_add 21 (b := rt.toNat * 2 ^ 16) (by omega) (by omega),
    or_eq_add 16 (b := rd.toNat * 2 ^ 11) (by omega) (by omega), or_eq_add 11 (b := amount.toNat * 2 ^ 6) (by omega) (by omega),
    or_eq_add 6 (b := funct.toNat) (by omega) (by omega)]

theorem toNat_toWord_i {opcode rs rt : UInt8} {imm : UInt16} (h : (i opcode rs rt imm).IsProper) :
    (i opcode rs rt imm).toWord.toNat = opcode.toNat * 2 ^ 26 + rs.toNat * 2 ^ 21 + rt.toNat * 2 ^ 16 + imm.toNat := by
  obtain ⟨ho, -, -, -, -, hs, ht⟩ := h
  have hi := imm.toNat_lt
  have hop : (place opcode 0x3F 26).toNat = opcode.toNat * 2 ^ 26 := toNat_place (k := 6) rfl ho rfl (by omega) (by omega)
  have hrs : (place rs 0x1F 21).toNat = rs.toNat * 2 ^ 21 := toNat_place (k := 5) rfl hs rfl (by omega) (by omega)
  have hrt : (place rt 0x1F 16).toNat = rt.toNat * 2 ^ 16 := toNat_place (k := 5) rfl ht rfl (by omega) (by omega)
  simp only [toWord, UInt32.toNat_or, hop, hrs, hrt, UInt16.toNat_toUInt32]
  rw [or_eq_add 26 (a := opcode.toNat * 2 ^ 26) (by omega) (by omega), or_eq_add 21 (b := rt.toNat * 2 ^ 16) (by omega) (by omega),
    or_eq_add 16 (b := imm.toNat) (by omega) (by omega)]

theorem toNat_toWord_j {opcode : UInt8} {index : Word} (h : (j opcode index).IsProper) :
    (j opcode index).toWord.toNat = opcode.toNat * 2 ^ 26 + index.toNat := by
  obtain ⟨ho, hi⟩ := h
  have ho : opcode.toNat < 2 ^ 6 := by
    rcases ho with rfl | rfl
    · decide
    · decide
  have hop : (place opcode 0x3F 26).toNat = opcode.toNat * 2 ^ 26 := toNat_place (k := 6) rfl ho rfl (by omega) (by omega)
  have kept : (index &&& 0x3FFFFFF).toNat = index.toNat := by
    rw [UInt32.toNat_and, show (0x3FFFFFF : Word).toNat = 2 ^ 26 - 1 from rfl, Nat.and_two_pow_sub_one_eq_mod]
    exact Nat.mod_eq_of_lt hi
  simp only [toWord, UInt32.toNat_or, hop, kept]
  rw [or_eq_add 26 (a := opcode.toNat * 2 ^ 26) (by omega) (by omega)]

/-! ## Fields of words -/

theorem pick_eq {w mask shift : Word} {f : UInt8} {k n : Nat} (hm : mask.toNat = 2 ^ k - 1) (hk : k ≤ 8) (hn : shift.toNat = n)
    (n32 : n < 32) (h : w.toNat / 2 ^ n % 2 ^ k = f.toNat) : pick w mask shift = f := by
  apply UInt8.toNat_inj.1
  rw [toNat_pick hm hk hn n32, h]

/-- Fields in range are taken out of their word again. -/
theorem ofWord_toWord {f : Fields} (h : f.IsProper) : ofWord f.toWord = f := by
  cases f with
  | r opcode rs rt rd amount funct =>
    have word := toNat_toWord_r h
    obtain ⟨ho, hs, ht, hd, ha, hf⟩ := h
    generalize (r opcode rs rt rd amount funct).toWord = w at word ⊢
    have hop : pick w 0x3F 26 = opcode := pick_eq (k := 6) (n := 26) rfl (by omega) rfl (by omega) (by
      rcases ho with rfl | rfl
      · simp only [UInt8.reduceToNat] at word
        simp only [UInt8.reduceToNat]; omega
      · simp only [UInt8.reduceToNat] at word
        simp only [UInt8.reduceToNat]; omega)
    have hrs : pick w 0x1F 21 = rs := pick_eq (k := 5) (n := 21) rfl (by omega) rfl (by omega) (by omega)
    have hrt : pick w 0x1F 16 = rt := pick_eq (k := 5) (n := 16) rfl (by omega) rfl (by omega) (by omega)
    have hrd : pick w 0x1F 11 = rd := pick_eq (k := 5) (n := 11) rfl (by omega) rfl (by omega) (by omega)
    have ham : pick w 0x1F 6 = amount := pick_eq (k := 5) (n := 6) rfl (by omega) rfl (by omega) (by omega)
    have hfn : pick w 0x3F 0 = funct := pick_eq (k := 6) (n := 0) rfl (by omega) rfl (by omega) (by omega)
    rw [ofWord, hop, hrs, hrt, hrd, ham, hfn]
    rcases ho with rfl | rfl
    · rfl
    · rfl
  | i opcode rs rt imm =>
    have word := toNat_toWord_i h
    obtain ⟨ho, h0, h16, h2, h3, hs, ht⟩ := h
    have hi := imm.toNat_lt
    generalize (i opcode rs rt imm).toWord = w at word ⊢
    have hop : pick w 0x3F 26 = opcode := pick_eq (k := 6) (n := 26) rfl (by omega) rfl (by omega) (by omega)
    have hrs : pick w 0x1F 21 = rs := pick_eq (k := 5) (n := 21) rfl (by omega) rfl (by omega) (by omega)
    have hrt : pick w 0x1F 16 = rt := pick_eq (k := 5) (n := 16) rfl (by omega) rfl (by omega) (by omega)
    have him : w.toUInt16 = imm := by
      apply UInt16.toNat_inj.1
      rw [UInt32.toNat_toUInt16]; omega
    unfold ofWord
    rw [hop, hrs, hrt, him]
    split
    · exact absurd rfl h0
    · exact absurd rfl h16
    · exact absurd rfl h2
    · exact absurd rfl h3
    · rfl
  | j opcode index =>
    have word := toNat_toWord_j h
    obtain ⟨ho, hi⟩ := h
    generalize (j opcode index).toWord = w at word ⊢
    have kept : w &&& 0x3FFFFFF = index := by
      apply UInt32.toNat_inj.1
      rw [UInt32.toNat_and, show (0x3FFFFFF : Word).toNat = 2 ^ 26 - 1 from rfl, Nat.and_two_pow_sub_one_eq_mod]
      omega
    have hop : pick w 0x3F 26 = opcode := pick_eq (k := 6) (n := 26) rfl (by omega) rfl (by omega) (by
      rcases ho with rfl | rfl
      · simp only [UInt8.reduceToNat] at word
        simp only [UInt8.reduceToNat]; omega
      · simp only [UInt8.reduceToNat] at word
        simp only [UInt8.reduceToNat]; omega)
    rw [ofWord, hop, kept]
    rcases ho with rfl | rfl
    · rfl
    · rfl

end Fields

/-! ## Instructions -/

theorem Reg.toNat_toByte (r : Reg) : r.toByte.toNat = r.num.val := by
  have := r.num_lt
  rw [toByte, UInt8.toNat_ofNat']; omega

theorem Reg.ofBits_toByte (r : Reg) : ofBits r.toByte.toNat = r := by
  have lt := r.num_lt
  obtain ⟨n⟩ := r
  rw [toNat_toByte, ofBits]
  congr 1
  exact Fin.ext (Nat.mod_eq_of_lt lt)

theorem SReg.ofNat?_ofBits (s : SReg) : ofNat? (Reg.ofBits (UInt8.ofNat s.num.val).toNat).num.val = some s := by
  cases s <;> rfl

theorem Op.subCode_lt (op : Op) : op.subCode.toNat < 64 := by
  cases op <;> (try rename_i k; cases k) <;> decide

theorem Op.opcode_of_format_r {op : Op} (h : op.format = .r) : op.opcode = 0x00 ∨ op.opcode = 0x10 := by
  revert h
  cases op <;> (try rename_i k; cases k) <;> decide

theorem Op.opcode_of_format_i {op : Op} (h : op.format = .i) :
    op.opcode.toNat < 64 ∧ op.opcode ≠ 0x00 ∧ op.opcode ≠ 0x10 ∧ op.opcode ≠ 0x02 ∧ op.opcode ≠ 0x03 := by
  revert h
  cases op <;> (try rename_i k; cases k) <;> decide

namespace Instr

/-- The fields of a legal instruction fit their places. -/
theorem isProper_toFields {i : Instr} (h : i.IsLegal) : i.toFields.IsProper := by
  have reg (r : Reg) : r.toByte.toNat < 32 := by
    rw [r.toNat_toByte]; exact r.num_lt
  have sel (s : SReg) : (UInt8.ofNat s.num.val).toNat < 32 := by cases s <;> decide
  have none : (0 : UInt8).toNat < 32 := by decide
  have registers {o : Op} (hf : o.format = .r) {a b c d : UInt8} (ha : a.toNat < 32) (hb : b.toNat < 32) (hc : c.toNat < 32)
      (hd : d.toNat < 32) : (Fields.r o.opcode a b c d o.subCode).IsProper :=
    ⟨Op.opcode_of_format_r hf, ha, hb, hc, hd, Op.subCode_lt o⟩
  have immediate {o : Op} (hf : o.format = .i) {a b : UInt8} (ha : a.toNat < 32) (hb : b.toNat < 32) (v : UInt16) :
      (Fields.i o.opcode a b v).IsProper := by
    obtain ⟨lt, h0, h16, h2, h3⟩ := Op.opcode_of_format_i hf
    exact ⟨lt, h0, h16, h2, h3, ha, hb⟩
  cases i with
  | shift k rd rt amount => exact registers (o := .shift k) rfl none (reg rt) (reg rd) h
  | shiftBy k rd rt rs => exact registers (o := .shiftBy k) rfl (reg rs) (reg rt) (reg rd) none
  | arith k rd rs rt => exact registers (o := .arith k) rfl (reg rs) (reg rt) (reg rd) none
  | jr rs => exact registers (o := .jr) rfl (reg rs) none none none
  | jalr rd rs => exact registers (o := .jalr) rfl (reg rs) none (reg rd) none
  | syscall => exact registers (o := .syscall) rfl none none none none
  | halt => exact registers (o := .halt) rfl none none none none
  | eret => exact registers (o := .eret) rfl none none none none
  | mfs rt s => exact registers (o := .mfs) rfl none (reg rt) (sel s) none
  | mts rt s => exact registers (o := .mts) rfl none (reg rt) (sel s) none
  | branchZero k rs offset =>
    have code : (Op.branchZero k).subCode.toNat < 32 := by cases k <;> decide
    cases k
    · exact immediate (o := .branchZero .ltz) rfl (reg rs) code _
    · exact immediate (o := .branchZero .gez) rfl (reg rs) code _
    · exact immediate (o := .branchZero .lez) rfl (reg rs) none _
    · exact immediate (o := .branchZero .gtz) rfl (reg rs) none _
  | jump link index =>
    cases link
    · exact ⟨.inl rfl, h⟩
    · exact ⟨.inr rfl, h⟩
  | branch k rs rt offset => exact immediate (o := .branch k) rfl (reg rs) (reg rt) _
  | signed k rt rs imm => exact immediate (o := .signed k) rfl (reg rs) (reg rt) _
  | bits k rt rs imm => exact immediate (o := .bits k) rfl (reg rs) (reg rt) _
  | lui rt imm => exact immediate (o := .lui) rfl none (reg rt) _
  | lw rt base offset => exact immediate (o := .lw) rfl (reg base) (reg rt) _
  | sw rt base offset => exact immediate (o := .sw) rfl (reg base) (reg rt) _

theorem ofFields_toFields (i : Instr) : ofFields i.toFields = .ok i := by
  cases i with
  | shift k rd rt amount | shiftBy k rd rt rs | arith k rd rs rt =>
    cases k <;> simp only [toFields, ofFields, Op.opcode, Op.subCode, op, Shift.code, Arith.code, Reg.ofBits_toByte] <;> rfl
  | jr rs | jalr rd rs =>
    simp only [toFields, ofFields, Op.opcode, Op.subCode, op, Reg.ofBits_toByte]; rfl
  | syscall | halt | eret => rfl
  | mfs rt s =>
    have code : Op.ofCodes? (Op.mfs).opcode (Op.mfs).subCode 0 = some .mfs := rfl
    simp only [toFields, ofFields, op, code, ofRegisters, SReg.ofNat?_ofBits, Reg.ofBits_toByte]
  | mts rt s =>
    have code : Op.ofCodes? (Op.mts).opcode (Op.mts).subCode 0 = some .mts := rfl
    simp only [toFields, ofFields, op, code, ofRegisters, SReg.ofNat?_ofBits, Reg.ofBits_toByte]
  | jump link index => cases link <;> rfl
  | branchZero k rs offset =>
    cases k <;> simp only [toFields, ofFields, Op.opcode, op, Reg.ofBits_toByte] <;> rfl
  | branch k a b v | signed k a b v | bits k a b v =>
    cases k <;> simp only [toFields, ofFields, Op.opcode, op, Reg.ofBits_toByte] <;> rfl
  | lui rt imm | lw rt base offset | sw rt base offset =>
    simp only [toFields, ofFields, Op.opcode, op, Reg.ofBits_toByte]; rfl

/-- A legal instruction is decoded from its word. -/
theorem decode_encode {i : Instr} (h : i.IsLegal) : decode i.encode = .ok i := by
  rw [decode, encode, Fields.ofWord_toWord (isProper_toFields h), ofFields_toFields]

end Instr

end M32
