/-
  Words that are decoded, those with junk in unused bits included.

  1. `Part` are the places in a word.  An operation uses the places of its key and of its operands (`Op.parts`); `Op.mask`
     are their bits.
  2. `Op.key` and `Word.key` are the numbers by which an operation is found.  The tables of operations and of their
     numbers agree in both directions (`Op.ofCodes?_eq_some_iff`).
  3. `Fields.toWord_ofWord`: taking a word apart loses nothing.
  4. `Instr.decode_cases`: a decoded instruction has the fields of its word that its operation uses, and zero in the others;
     so its own word is that word with the unused bits cleared (`Instr.encode_of_decode`).
  5. `Instr.decode_exact` puts these together with the round trip from instructions, and says which words are none.
-/
import M32.Proofs.Instr.Words

namespace M32

/-! ## Places in a word -/

/-- The places of a word that the layouts name.  A word index and an immediate lie over other places. -/
inductive Part where
  | opcode | rs | rt | rd | amount | funct | imm | index
  deriving DecidableEq, Repr

/-- The bits of a place. -/
def Part.mask : Part → Word
  | opcode => 0xFC000000
  | rs => 0x03E00000
  | rt => 0x001F0000
  | rd => 0x0000F800
  | amount => 0x000007C0
  | funct => 0x0000003F
  | imm => 0x0000FFFF
  | index => 0x03FFFFFF

namespace Op

/-- The place of an operand.  The selector of a special register stands in the place of a third register. -/
def Slot.part : Slot → Part
  | rs => .rs
  | rt => .rt
  | rd | selector => .rd
  | amount => .amount
  | signed | unsigned => .imm
  | index => .index

/-- The places by which an operation is found. -/
def keyParts (op : Op) : List Part :=
  if op.opcode = 0x00 ∨ op.opcode = 0x10 then [.opcode, .funct]
  else if op.opcode = 0x01 then [.opcode, .rt]
  else [.opcode]

/-- The places that an operation uses. -/
def parts (op : Op) : List Part := op.keyParts ++ op.slots.map Slot.part

/-- The bits that an operation uses. -/
def mask (op : Op) : Word := op.parts.foldr (fun p m => p.mask ||| m) 0

/-! ## Keys -/

/-- The opcode with the number that tells operations of this opcode apart, where there are several. -/
def keyOf (opcode funct rt : UInt8) : UInt8 × UInt8 :=
  (opcode, if opcode = 0x00 ∨ opcode = 0x10 then funct else if opcode = 0x01 then rt else 0)

/-- The key of an operation. -/
def key (op : Op) : UInt8 × UInt8 := (op.opcode, op.subCode)

theorem key_of_ofFunct? {funct : UInt8} {op : Op} (h : ofFunct? funct = some op) : op.key = (0x00, funct) := by
  have shift {k : Shift} (hk : Shift.ofCode? funct = some k) : k.code = funct := by
    unfold Shift.ofCode? at hk
    split at hk <;> cases hk <;> rfl
  have arith {k : Arith} (hk : Arith.ofCode? funct = some k) : k.code = funct := by
    unfold Arith.ofCode? at hk
    split at hk <;> cases hk <;> rfl
  unfold ofFunct? at h
  split at h
  -- the last case is that of the two families; the others name one operation
  case h_8 =>
    split at h
    · next k hk =>
      cases h
      rw [key, subCode, shift hk]; rfl
    · obtain ⟨k, hk, rfl⟩ := Option.map_eq_some_iff.1 h
      rw [key, subCode, arith hk]; rfl
  all_goals cases h; rfl

theorem key_of_ofCodes? {opcode funct rt : UInt8} {op : Op} (h : ofCodes? opcode funct rt = some op) :
    op.key = keyOf opcode funct rt := by
  unfold ofCodes? at h
  split at h
  case h_1 => exact key_of_ofFunct? h
  case h_2 => split at h <;> cases h <;> rfl
  case h_17 => split at h <;> cases h <;> rfl
  all_goals cases h <;> rfl

/-- The operation of some numbers is the one that has their key. -/
theorem ofCodes?_eq_some_iff {opcode funct rt : UInt8} {op : Op} :
    ofCodes? opcode funct rt = some op ↔ op.key = keyOf opcode funct rt := by
  refine ⟨key_of_ofCodes?, fun h => ?_⟩
  have ho : op.opcode = opcode := congrArg Prod.fst h
  have hs : op.subCode = (keyOf opcode funct rt).2 := congrArg Prod.snd h
  subst ho
  -- an operation is found by its own numbers, and other numbers of its key differ where its opcode does not look
  rw [← ofCodes?_codes op]
  revert hs
  cases op <;> (try rename_i k; cases k) <;>
    simp [keyOf, opcode, subCode, ofCodes?, Shift.code, Arith.code] <;> rintro rfl <;> rfl

theorem format_of_registers {op : Op} (h : op.opcode = 0x00 ∨ op.opcode = 0x10) : op.format = .r := by
  revert h
  cases op <;> (try rename_i k; cases k) <;> decide

theorem format_of_index {op : Op} (h : op.opcode = 0x02 ∨ op.opcode = 0x03) : op.format = .j := by
  revert h
  cases op <;> (try rename_i k; cases k) <;> decide

theorem format_of_immediate {op : Op} (h : ¬ (op.opcode = 0x00 ∨ op.opcode = 0x10)) (h' : ¬ (op.opcode = 0x02 ∨ op.opcode = 0x03)) :
    op.format = .i := by
  revert h h'
  cases op <;> (try rename_i k; cases k) <;> decide

end Op

/-- The key of a word: its opcode, with the low six bits for opcodes 0 and 16, with the second register field for
    opcode 1, and alone for the others. -/
def Word.key (w : Word) : UInt8 × UInt8 :=
  Op.keyOf (w >>> 26).toUInt8 (w &&& 0x3F).toUInt8 ((w >>> 16) &&& 0x1F).toUInt8

/-- The selector of a special register in a word. -/
def Word.selector (w : Word) : Nat := ((w >>> 11) &&& 0x1F).toNat

/-! ## Fields of a word -/

namespace Fields

theorem and_or_and (w a b : Word) : w &&& a ||| w &&& b = w &&& (a ||| b) := by
  apply UInt32.toNat_inj.1
  simp only [UInt32.toNat_or, UInt32.toNat_and, Nat.and_or_distrib_left]

theorem pick_lt (w : Word) {mask shift : Word} (k : Nat) (hm : mask.toNat = 2 ^ k - 1) (hk : k ≤ 8) (hs : shift.toNat < 32) :
    (pick w mask shift).toNat < 2 ^ k := by
  rw [toNat_pick hm hk rfl hs]
  exact Nat.mod_lt _ (Nat.two_pow_pos k)

/-- A field goes back to where it was taken from. -/
theorem place_pick (w : Word) {mask shift : Word} (hm : mask.toNat < 256) (hs : shift.toNat < 32) :
    place (pick w mask shift) mask shift = w &&& (mask <<< shift) := by
  have same : shift.toNat % 32 = shift.toNat := Nat.mod_eq_of_lt hs
  have small : ∀ k, 8 ≤ k → mask.toBitVec.getLsbD k = false := by
    intro k hk
    exact Nat.testBit_lt_two_pow (Nat.lt_of_lt_of_le hm (Nat.pow_le_pow_right (n := 2) (by decide) hk))
  apply UInt32.eq_of_toBitVec_eq
  simp only [place, pick, UInt32.toBitVec_shiftLeft, UInt32.toBitVec_and, UInt8.toBitVec_toUInt32, UInt32.toBitVec_toUInt8,
    UInt32.toBitVec_shiftRight]
  apply BitVec.eq_of_getLsbD_eq
  intro n hn
  simp [BitVec.getLsbD_shiftLeft, same]
  -- below the shift both sides are clear, above the eight bits of a field the mask is
  by_cases low : n < shift.toNat
  · simp [low]
  · rw [show shift.toNat + (n - shift.toNat) = n by omega]
    by_cases high : n - shift.toNat < 8
    · simp [low, high, hn, show n - shift.toNat < 32 by omega]
    · simp [low, high, small _ (Nat.le_of_not_lt high)]

theorem place_opcode (w : Word) : place (pick w 0x3F 26) 0x3F 26 = w &&& Part.opcode.mask := place_pick w (by decide) (by decide)

theorem place_rs (w : Word) : place (pick w 0x1F 21) 0x1F 21 = w &&& Part.rs.mask := place_pick w (by decide) (by decide)

theorem place_rt (w : Word) : place (pick w 0x1F 16) 0x1F 16 = w &&& Part.rt.mask := place_pick w (by decide) (by decide)

theorem place_rd (w : Word) : place (pick w 0x1F 11) 0x1F 11 = w &&& Part.rd.mask := place_pick w (by decide) (by decide)

theorem place_amount (w : Word) : place (pick w 0x1F 6) 0x1F 6 = w &&& Part.amount.mask := place_pick w (by decide) (by decide)

theorem place_funct (w : Word) : place (pick w 0x3F 0) 0x3F 0 = w &&& Part.funct.mask := place_pick w (by decide) (by decide)

theorem toUInt32_toUInt16 (w : Word) : w.toUInt16.toUInt32 = w &&& Part.imm.mask := by
  apply UInt32.toNat_inj.1
  rw [UInt16.toNat_toUInt32, UInt32.toNat_toUInt16, UInt32.toNat_and]
  exact (Nat.and_two_pow_sub_one_eq_mod w.toNat 16).symm

/-- A register field is the number of its register. -/
theorem toByte_ofBits_pick (w shift : Word) (hs : shift.toNat < 32) :
    (Reg.ofBits (pick w 0x1F shift).toNat).toByte = pick w 0x1F shift := by
  have lt : (pick w 0x1F shift).toNat < 32 := pick_lt w 5 rfl (by decide) hs
  apply UInt8.toNat_inj.1
  rw [Reg.toNat_toByte, Reg.ofBits]
  exact Nat.mod_eq_of_lt lt

/-! ### Layouts -/

/-- What the opcode of a word says of its layout. -/
theorem ofWord_cases (w : Word) :
    (pick w 0x3F 26 = 0x00 ∨ pick w 0x3F 26 = 0x10) ∧
      ofWord w = r (pick w 0x3F 26) (pick w 0x1F 21) (pick w 0x1F 16) (pick w 0x1F 11) (pick w 0x1F 6) (pick w 0x3F 0) ∨
    (pick w 0x3F 26 = 0x02 ∨ pick w 0x3F 26 = 0x03) ∧ ofWord w = j (pick w 0x3F 26) (w &&& 0x3FFFFFF) ∨
    (¬ (pick w 0x3F 26 = 0x00 ∨ pick w 0x3F 26 = 0x10) ∧ ¬ (pick w 0x3F 26 = 0x02 ∨ pick w 0x3F 26 = 0x03)) ∧
      ofWord w = i (pick w 0x3F 26) (pick w 0x1F 21) (pick w 0x1F 16) w.toUInt16 := by
  unfold ofWord
  split
  · next h => rw [h]; exact .inl ⟨.inl rfl, rfl⟩
  · next h => rw [h]; exact .inl ⟨.inr rfl, rfl⟩
  · next h => rw [h]; exact .inr (.inl ⟨.inl rfl, rfl⟩)
  · next h => rw [h]; exact .inr (.inl ⟨.inr rfl, rfl⟩)
  · next h0 h16 h2 h3 =>
    refine .inr (.inr ⟨⟨?_, ?_⟩, rfl⟩)
    · rintro (h | h)
      · exact h0 h
      · exact h16 h
    · rintro (h | h)
      · exact h2 h
      · exact h3 h

/-- The fields of a word make up the word. -/
theorem toWord_ofWord (w : Word) : (ofWord w).toWord = w := by
  have whole : w &&& 0xFFFFFFFF = w := UInt32.and_neg_one
  rcases ofWord_cases w with ⟨-, h⟩ | ⟨-, h⟩ | ⟨-, h⟩
  · rw [h, toWord, place_opcode, place_rs, place_rt, place_rd, place_amount, place_funct]
    simp only [and_or_and]
    exact whole
  · rw [h, toWord, place_opcode, UInt32.and_assoc, and_or_and]
    exact whole
  · rw [h, toWord, place_opcode, place_rs, place_rt, toUInt32_toUInt16]
    simp only [and_or_and]
    exact whole

/-! ### Used fields -/

/-- A field of a place that an operation uses, zero otherwise. -/
def keep (op : Op) (p : Part) (field : UInt8) : UInt8 := if p ∈ op.parts then field else 0

/-- The fields without those that an operation does not use.  What selects the operation is always used, and so is an
    immediate or a word index, where the layout has one. -/
def only (op : Op) : Fields → Fields
  | r opcode rs rt rd amount funct =>
    r opcode (keep op .rs rs) (keep op .rt rt) (keep op .rd rd) (keep op .amount amount) funct
  | i opcode rs rt imm => i opcode (keep op .rs rs) (keep op .rt rt) imm
  | j opcode index => j opcode index

/-- The bits of a place that an operation uses, none otherwise. -/
def keptMask (op : Op) (p : Part) : Word := if p ∈ op.parts then p.mask else 0

theorem place_keep (op : Op) (p : Part) {w : Word} {field : UInt8} {mask shift : Word} (h : place field mask shift = w &&& p.mask) :
    place (keep op p field) mask shift = w &&& keptMask op p := by
  rw [keep, keptMask]
  split
  · exact h
  · rw [UInt32.and_zero]
    simp [place]

/-- The used fields of a word make up its used bits. -/
theorem toWord_only {w : Word} {op : Op} (h : op.opcode = pick w 0x3F 26) : ((ofWord w).only op).toWord = w &&& op.mask := by
  rcases ofWord_cases w with ⟨ho, hw⟩ | ⟨ho, hw⟩ | ⟨⟨h0, h2⟩, hw⟩
  · have mask : Part.opcode.mask ||| keptMask op .rs ||| keptMask op .rt ||| keptMask op .rd ||| keptMask op .amount
        ||| Part.funct.mask = op.mask := by
      rw [← h] at ho
      revert ho
      clear h hw
      cases op <;> (try rename_i k; cases k) <;> decide
    rw [hw, only, toWord, place_opcode, place_keep op .rs (place_rs w), place_keep op .rt (place_rt w),
      place_keep op .rd (place_rd w), place_keep op .amount (place_amount w), place_funct]
    simp only [and_or_and, mask]
  · have mask : Part.opcode.mask ||| Part.index.mask = op.mask := by
      rw [← h] at ho
      revert ho
      clear h hw
      cases op <;> (try rename_i k; cases k) <;> decide
    rw [hw, only, toWord, place_opcode, UInt32.and_assoc, and_or_and]
    exact congrArg (w &&& ·) mask
  · have mask : Part.opcode.mask ||| keptMask op .rs ||| keptMask op .rt ||| Part.imm.mask = op.mask := by
      rw [← h] at h0 h2
      revert h0 h2
      clear h hw
      cases op <;> (try rename_i k; cases k) <;> decide
    rw [hw, only, toWord, place_opcode, place_keep op .rs (place_rs w), place_keep op .rt (place_rt w), toUInt32_toUInt16]
    simp only [and_or_and, mask]

end Fields

/-! ## Decoded instructions -/

namespace Instr

open Fields (pick)

/-- An instruction of the register layout has the used fields of its word. -/
theorem toFields_of_ofRegisters {w : Word} {op : Op} {i : Instr} (hk : op.key = (pick w 0x3F 26, pick w 0x3F 0))
    (h : ofRegisters w op (.ofBits (pick w 0x1F 21).toNat) (.ofBits (pick w 0x1F 16).toNat)
      (.ofBits (pick w 0x1F 11).toNat) (pick w 0x1F 6) = .ok i) :
    i.op = op ∧ i.IsLegal ∧ i.toFields = Fields.only op (.r (pick w 0x3F 26) (pick w 0x1F 21) (pick w 0x1F 16) (pick w 0x1F 11)
      (pick w 0x1F 6) (pick w 0x3F 0)) := by
  have opcode : op.opcode = pick w 0x3F 26 := congrArg Prod.fst hk
  have funct : op.subCode = pick w 0x3F 0 := congrArg Prod.snd hk
  have rs := Fields.toByte_ofBits_pick w 21 (by decide)
  have rt := Fields.toByte_ofBits_pick w 16 (by decide)
  have rd := Fields.toByte_ofBits_pick w 11 (by decide)
  rw [← opcode, ← funct]
  cases op with
  | shift k =>
    cases h
    refine ⟨rfl, Fields.pick_lt w 5 rfl (by decide) (by decide), ?_⟩
    simp only [toFields, rt, rd]
    cases k <;> rfl
  | shiftBy k | arith k =>
    cases h
    refine ⟨rfl, trivial, ?_⟩
    simp only [toFields, rs, rt, rd]
    cases k <;> rfl
  | jr | jalr =>
    cases h
    refine ⟨rfl, trivial, ?_⟩
    simp only [toFields, rs, rd]
    rfl
  | syscall | halt | eret =>
    cases h
    exact ⟨rfl, trivial, rfl⟩
  | mfs | mts =>
    simp only [ofRegisters] at h
    split at h
    · next s hs =>
      cases h
      refine ⟨rfl, trivial, ?_⟩
      have sel : UInt8.ofNat s.num.val = pick w 0x1F 11 := by
        rw [SReg.num_of_ofNat? hs]; exact rd
      simp only [toFields, rt, sel]
      rfl
    · cases h
  | _ => cases h

/-- An instruction of the immediate layout has the used fields of its word. -/
theorem toFields_of_ofImmediate {w : Word} {op : Op} {i : Instr}
    (hk : op.key = Op.keyOf (pick w 0x3F 26) 0 (pick w 0x1F 16))
    (h : ofImmediate w op (.ofBits (pick w 0x1F 21).toNat) (.ofBits (pick w 0x1F 16).toNat) w.toUInt16 = .ok i) :
    i.op = op ∧ i.IsLegal ∧ i.toFields = Fields.only op (.i (pick w 0x3F 26) (pick w 0x1F 21) (pick w 0x1F 16) w.toUInt16) := by
  have opcode : op.opcode = pick w 0x3F 26 := congrArg Prod.fst hk
  have rs := Fields.toByte_ofBits_pick w 21 (by decide)
  have rt := Fields.toByte_ofBits_pick w 16 (by decide)
  have code : op.subCode = (Op.keyOf (pick w 0x3F 26) 0 (pick w 0x1F 16)).2 := congrArg Prod.snd hk
  rw [← opcode] at code ⊢
  cases op with
  | branchZero test =>
    cases h
    refine ⟨rfl, trivial, ?_⟩
    -- two of the tests have their number in place of a register
    cases test with
    | ltz | gez =>
      have sub : pick w 0x1F 16 = _ := code.symm
      simp only [toFields, rs, sub, UInt16.toUInt16_toInt16]
      rfl
    | lez | gtz =>
      simp only [toFields, rs, UInt16.toUInt16_toInt16]
      rfl
  | branch k | signed k | bits k =>
    cases h
    refine ⟨rfl, trivial, ?_⟩
    simp only [toFields, rs, rt, UInt16.toUInt16_toInt16]
    cases k <;> rfl
  | lui | lw | sw =>
    cases h
    refine ⟨rfl, trivial, ?_⟩
    simp only [toFields, rs, rt, UInt16.toUInt16_toInt16]
    rfl
  | _ => cases h

/-! ### Words by their keys -/

theorem key_eq (w : Word) : w.key = Op.keyOf (pick w 0x3F 26) (pick w 0x3F 0) (pick w 0x1F 16) := by
  have opcode : (w >>> 26).toUInt8 = pick w 0x3F 26 := by
    have lt := w.toNat_lt
    apply UInt8.toNat_inj.1
    rw [Fields.toNat_pick (k := 6) (n := 26) rfl (by decide) rfl (by decide), UInt32.toNat_toUInt8, UInt32.toNat_shiftRight]
    show w.toNat >>> 26 % 256 = _
    rw [Nat.shiftRight_eq_div_pow]; omega
  have funct : (w &&& 0x3F).toUInt8 = pick w 0x3F 0 := by
    rw [pick, UInt32.shiftRight_zero]
  rw [Word.key, opcode, funct]; rfl

/-- Whether a word moves a special register by a selector that is none. -/
def IsBadMove (w : Word) : Prop := (w.key = Op.mfs.key ∨ w.key = Op.mts.key) ∧ 7 < w.selector

theorem key_injective {op other : Op} (h : op.key = other.key) : op = other := by
  have ho : op.opcode = other.opcode := congrArg Prod.fst h
  have hs : op.subCode = other.subCode := congrArg Prod.snd h
  have same := Op.ofCodes?_codes op
  rw [ho, hs, Op.ofCodes?_codes other] at same
  exact (Option.some.inj same).symm

theorem not_isBadMove {w : Word} {op : Op} (hk : op.key = w.key) (h : op ≠ .mfs) (h' : op ≠ .mts) : ¬ IsBadMove w := by
  rintro ⟨hm | hm, -⟩
  · exact h (key_injective (hk.trans hm))
  · exact h' (key_injective (hk.trans hm))

theorem selector_eq (w : Word) : (Reg.ofBits (pick w 0x1F 11).toNat).num.val = w.selector := by
  have byte := congrArg UInt8.toNat (Fields.toByte_ofBits_pick w 11 (by decide))
  rw [Reg.toNat_toByte] at byte
  have lt : (w >>> 11 &&& 0x1F).toNat < 256 := by
    rw [UInt32.toNat_and]
    exact Nat.lt_of_le_of_lt Nat.and_le_right (by decide)
  rw [byte, Word.selector, pick, UInt32.toNat_toUInt8]
  exact Nat.mod_eq_of_lt lt

/-- An operation of the register layout gives an instruction, unless it moves a special register by a bad selector. -/
theorem ofRegisters_cases {w e : Word} {op : Op} (hf : op.format = .r) (hk : op.key = w.key) (rs rt : Reg) (amount : UInt8) :
    IsBadMove w ∧ ofRegisters e op rs rt (.ofBits (pick w 0x1F 11).toNat) amount = .error (.badSelector e) ∨
    ¬ IsBadMove w ∧ ∃ i, ofRegisters e op rs rt (.ofBits (pick w 0x1F 11).toNat) amount = .ok i := by
  have known {s : SReg} (hs : SReg.ofNat? w.selector = some s) : ¬ IsBadMove w := by
    rintro ⟨-, far⟩
    rw [← SReg.num_of_ofNat? hs] at far
    exact absurd s.num.isLt (by omega)
  have unknown (hs : SReg.ofNat? w.selector = none) : 7 < w.selector := by
    by_contra near
    have all : ∀ n < 8, (SReg.ofNat? n).isSome = true := by decide
    have isSome := all w.selector (by omega)
    rw [hs] at isSome
    cases isSome
  cases op with
  | mfs =>
    simp only [ofRegisters, selector_eq]
    split
    · next s hs => exact .inr ⟨known hs, _, rfl⟩
    · next hs => exact .inl ⟨⟨.inl hk.symm, unknown hs⟩, rfl⟩
  | mts =>
    simp only [ofRegisters, selector_eq]
    split
    · next s hs => exact .inr ⟨known hs, _, rfl⟩
    · next hs => exact .inl ⟨⟨.inr hk.symm, unknown hs⟩, rfl⟩
  | shift | shiftBy | jr | jalr | syscall | halt | arith | eret =>
    refine .inr ⟨not_isBadMove hk ?_ ?_, _, rfl⟩
    · rintro ⟨⟩
    · rintro ⟨⟩
  | _ => cases hf

theorem ofImmediate_of_format {op : Op} (hf : op.format = .i) (e : Word) (rs rt : Reg) (imm : UInt16) :
    ∃ i, ofImmediate e op rs rt imm = .ok i := by
  cases op with
  | branchZero | branch | signed | bits | lui | lw | sw => exact ⟨_, rfl⟩
  | _ => cases hf

/-- Whether a result is what an operation gives that has the key of a word: an instruction with the fields that the operation
    uses, unless it moves a special register by a bad selector. -/
def IsFound (w : Word) (result : Except DecodeError Instr) : Prop :=
  IsBadMove w ∧ result = .error (.badSelector w) ∨
    ¬ IsBadMove w ∧ ∃ i, result = .ok i ∧ i.op.key = w.key ∧ i.IsLegal ∧ i.toFields = (Fields.ofWord w).only i.op

theorem opcode_of_key {w : Word} {op : Op} (h : op.key = w.key) : op.opcode = pick w 0x3F 26 := by
  rw [key_eq] at h
  exact congrArg Prod.fst h

theorem isFound_registers {w : Word} {op : Op} (ho : pick w 0x3F 26 = 0x00 ∨ pick w 0x3F 26 = 0x10)
    (hw : Fields.ofWord w = .r (pick w 0x3F 26) (pick w 0x1F 21) (pick w 0x1F 16) (pick w 0x1F 11) (pick w 0x1F 6) (pick w 0x3F 0))
    (hk : op.key = w.key) :
    IsFound w (ofRegisters w op (.ofBits (pick w 0x1F 21).toNat) (.ofBits (pick w 0x1F 16).toNat)
      (.ofBits (pick w 0x1F 11).toNat) (pick w 0x1F 6)) := by
  have hf : op.format = .r := Op.format_of_registers (by rwa [opcode_of_key hk])
  rcases ofRegisters_cases hf hk _ _ _ with bad | ⟨fine, i, hi⟩
  · exact .inl bad
  · have pair : op.key = (pick w 0x3F 26, pick w 0x3F 0) := by
      rw [hk, key_eq, Op.keyOf, if_pos ho]
    obtain ⟨rfl, legal, fields⟩ := toFields_of_ofRegisters pair hi
    exact .inr ⟨fine, i, hi, hk, legal, by rw [hw, fields]⟩

theorem isFound_immediate {w : Word} {op : Op} (h0 : ¬ (pick w 0x3F 26 = 0x00 ∨ pick w 0x3F 26 = 0x10))
    (h2 : ¬ (pick w 0x3F 26 = 0x02 ∨ pick w 0x3F 26 = 0x03))
    (hw : Fields.ofWord w = .i (pick w 0x3F 26) (pick w 0x1F 21) (pick w 0x1F 16) w.toUInt16) (hk : op.key = w.key) :
    IsFound w (ofImmediate w op (.ofBits (pick w 0x1F 21).toNat) (.ofBits (pick w 0x1F 16).toNat) w.toUInt16) := by
  have hf : op.format = .i := Op.format_of_immediate (by rwa [opcode_of_key hk]) (by rwa [opcode_of_key hk])
  have fine : ¬ IsBadMove w := by
    apply not_isBadMove hk
    · rintro rfl
      cases hf
    · rintro rfl
      cases hf
  obtain ⟨i, hi⟩ := ofImmediate_of_format hf w (.ofBits (pick w 0x1F 21).toNat) (.ofBits (pick w 0x1F 16).toNat) w.toUInt16
  have key : op.key = Op.keyOf (pick w 0x3F 26) 0 (pick w 0x1F 16) := by
    rw [hk, key_eq, Op.keyOf, Op.keyOf, if_neg h0, if_neg h0]
  obtain ⟨rfl, legal, fields⟩ := toFields_of_ofImmediate key hi
  exact .inr ⟨fine, i, hi, hk, legal, by rw [hw, fields]⟩

/-- What an operation gives with a word index. -/
def ofIndex (w index : Word) : Op → Except DecodeError Instr
  | .jump link => .ok (jump link index)
  | _ => .error (.unknownWord w)

theorem isFound_index {w : Word} {op : Op} (ho : pick w 0x3F 26 = 0x02 ∨ pick w 0x3F 26 = 0x03)
    (hw : Fields.ofWord w = .j (pick w 0x3F 26) (w &&& 0x3FFFFFF)) (hk : op.key = w.key) :
    IsFound w (ofIndex w (w &&& 0x3FFFFFF) op) := by
  have hf : op.format = .j := Op.format_of_index (by rwa [opcode_of_key hk])
  cases op with
  | jump link =>
    have legal : (jump link (w &&& 0x3FFFFFF)).IsLegal := by
      show (w &&& 0x3FFFFFF).toNat < indexLimit
      rw [UInt32.toNat_and]
      exact Nat.lt_of_le_of_lt Nat.and_le_right (by decide)
    refine .inr ⟨not_isBadMove hk nofun nofun, _, rfl, hk, legal, ?_⟩
    rw [hw, ← opcode_of_key hk]
    rfl
  | _ => cases hf

/-- A word whose operation is looked up by some numbers of its key. -/
theorem decode_of_codes {w : Word} {opcode funct rt : UInt8} {found : Op → Except DecodeError Instr}
    (hk : w.key = Op.keyOf opcode funct rt) (unknown : Op.ofCodes? opcode funct rt = none → decode w = .error (.unknownWord w))
    (known : ∀ op, Op.ofCodes? opcode funct rt = some op → decode w = found op)
    (isFound : ∀ op : Op, op.key = w.key → IsFound w (found op)) :
    (∀ op : Op, op.key ≠ w.key) ∧ decode w = .error (.unknownWord w) ∨ IsFound w (decode w) := by
  cases hop : Op.ofCodes? opcode funct rt with
  | none =>
    refine .inl ⟨?_, unknown hop⟩
    intro op h
    rw [Op.ofCodes?_eq_some_iff.2 (h.trans hk)] at hop
    cases hop
  | some op =>
    right
    rw [known op hop]
    exact isFound op ((Op.ofCodes?_eq_some_iff.1 hop).trans hk.symm)

/-- A word is decoded as the instruction of its key, unless there is none or the selector is too large. -/
theorem decode_cases (w : Word) :
    (∀ op : Op, op.key ≠ w.key) ∧ decode w = .error (.unknownWord w) ∨ IsFound w (decode w) := by
  have whole := Fields.toWord_ofWord w
  have key := key_eq w
  rcases Fields.ofWord_cases w with ⟨ho, hw⟩ | ⟨ho, hw⟩ | ⟨⟨h0, h2⟩, hw⟩
  · rw [hw] at whole
    have key0 : w.key = Op.keyOf (pick w 0x3F 26) (pick w 0x3F 0) 0 := by
      rw [key, Op.keyOf, Op.keyOf, if_pos ho, if_pos ho]
    refine decode_of_codes key0 (fun hop => ?_) (fun op hop => ?_) fun op hk => isFound_registers ho hw hk
    · simp only [decode, hw, ofFields, whole, hop]
    · simp only [decode, hw, ofFields, whole, hop]
  · -- opcodes 2 and 3 are keys by themselves, so the other numbers are looked up as zero
    have no0 : ¬ (pick w 0x3F 26 = 0x00 ∨ pick w 0x3F 26 = 0x10) := by rcases ho with h | h <;> rw [h] <;> decide
    have no1 : ¬ pick w 0x3F 26 = 0x01 := by rcases ho with h | h <;> rw [h] <;> decide
    rw [hw] at whole
    have key0 : w.key = Op.keyOf (pick w 0x3F 26) 0 0 := by
      rw [key, Op.keyOf, Op.keyOf, if_neg no0, if_neg no0, if_neg no1, if_neg no1]
    refine decode_of_codes key0 (fun hop => ?_) (fun op hop => ?_) fun op hk => isFound_index ho hw hk
    · simp only [decode, hw, ofFields, whole, hop]
    · simp only [decode, hw, ofFields, whole, hop]
      cases op <;> rfl
  · rw [hw] at whole
    have key0 : w.key = Op.keyOf (pick w 0x3F 26) 0 (pick w 0x1F 16) := by
      rw [key, Op.keyOf, Op.keyOf, if_neg h0, if_neg h0]
    refine decode_of_codes key0 (fun hop => ?_) (fun op hop => ?_) fun op hk => isFound_immediate h0 h2 hw hk
    · simp only [decode, hw, ofFields, whole, hop]
    · simp only [decode, hw, ofFields, whole, hop]

/-! ### Round trips -/

/-- The word of a decoded instruction is the word that it was decoded from, without the bits that its operation does not
    use. -/
theorem encode_of_decode {w : Word} {i : Instr} (h : decode w = .ok i) : i.IsLegal ∧ i.encode = w &&& i.op.mask := by
  rcases decode_cases w with ⟨-, he⟩ | ⟨-, he⟩ | ⟨-, j, hj, hk, legal, fields⟩
  · rw [h] at he; cases he
  · rw [h] at he; cases he
  · obtain rfl : i = j := by
      rw [h] at hj
      exact Except.ok.inj hj
    rw [key_eq] at hk
    refine ⟨legal, ?_⟩
    rw [encode, fields, Fields.toWord_only (congrArg Prod.fst hk)]

theorem decode_eq_error_iff (w : Word) : (∃ e, decode w = .error e) ↔ (∀ op : Op, op.key ≠ w.key) ∨ IsBadMove w := by
  rcases decode_cases w with ⟨unknown, he⟩ | ⟨bad, he⟩ | ⟨fine, i, hi, hk, -, -⟩
  · exact ⟨fun _ => .inl unknown, fun _ => ⟨_, he⟩⟩
  · exact ⟨fun _ => .inr bad, fun _ => ⟨_, he⟩⟩
  · constructor
    · rintro ⟨e, he⟩
      rw [hi] at he
      cases he
    · rintro (unknown | bad)
      · exact absurd hk (unknown i.op)
      · exact absurd bad fine

/-- Decoding is exact.
    1. A legal instruction is decoded from its word.
    2. What a word is decoded as is legal, its own word differs from the first one in bits that its operation does not use and
       that are clear in it, and is decoded alike.
    3. To decode and encode twice is to do so once.
    4. A word is no instruction exactly if its key is that of no operation, or if it moves a special register by a
       selector above 7. -/
theorem decode_exact :
    (∀ i : Instr, i.IsLegal → decode i.encode = .ok i) ∧
    (∀ (w : Word) (i : Instr), decode w = .ok i → i.IsLegal ∧ i.encode = w &&& i.op.mask ∧ decode i.encode = .ok i) ∧
    (∀ w v : Word, (decode w).map encode = .ok v → (decode v).map encode = .ok v) ∧
    (∀ w : Word, (∃ e, decode w = .error e) ↔
      (∀ op : Op, op.key ≠ w.key) ∨ (w.key = Op.mfs.key ∨ w.key = Op.mts.key) ∧ 7 < w.selector) := by
  refine ⟨fun i => decode_encode, ?_, ?_, decode_eq_error_iff⟩
  · intro w i h
    obtain ⟨legal, word⟩ := encode_of_decode h
    exact ⟨legal, word, decode_encode legal⟩
  · intro w v h
    cases hd : decode w with
    | error e => rw [hd] at h; cases h
    | ok i =>
      rw [hd] at h
      cases h
      rw [decode_encode (encode_of_decode hd).1]
      rfl

/-- The word of `slt` with junk in the five bits of a shift amount, and a move by the selector 8. -/
theorem decode_exact_junk :
    (slt ⟨3⟩ ⟨1⟩ ⟨2⟩).IsLegal ∧ decode (slt ⟨3⟩ ⟨1⟩ ⟨2⟩).encode = .ok (slt ⟨3⟩ ⟨1⟩ ⟨2⟩) ∧
      decode 0x00221FEA = .ok (slt ⟨3⟩ ⟨1⟩ ⟨2⟩) ∧ (slt ⟨3⟩ ⟨1⟩ ⟨2⟩).encode = 0x00221FEA &&& (Op.arith .slt).mask ∧
      (decode 0x00221FEA).map encode = .ok 0x0022182A ∧ (decode 0x0022182A).map encode = .ok 0x0022182A ∧
      ∃ e, decode 0x40014000 = .error e :=
  have read : decode 0x00221FEA = .ok (slt ⟨3⟩ ⟨1⟩ ⟨2⟩) := by decide +kernel
  have written : (decode 0x00221FEA).map encode = .ok 0x0022182A := by decide +kernel
  ⟨trivial, decode_exact.1 _ trivial, read, (decode_exact.2.1 _ _ read).2.1, written, decode_exact.2.2.1 _ _ written,
    (decode_exact.2.2.2 _).2 (.inr (by decide))⟩

end Instr

end M32
