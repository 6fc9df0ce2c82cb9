/-
  The numbers in the places of an instruction word.

  1. `Word.field` is the number that stands in a place.  The word of fields in range has each field in its place
     (`Fields.field_toWord`).
  2. `Instr.values` are the integers that the operands of an instruction stand for, in the order of its operation's slots.
  3. In the word of a legal instruction every operand stands in the place of its slot (`Instr.field_values`), the numbers of the
     operation in the places of its key (`Instr.field_key`), and zero in the places that the operation does not use
     (`Instr.field_unused`).
-/
import M32.Proofs.Instr.Decoded
import Mathlib.Data.List.Forall2

namespace M32

/-! ## Places -/

namespace Part

/-- The lowest bit of a place. -/
def shift : Part → Nat
  | opcode => 26
  | rs => 21
  | rt => 16
  | rd => 11
  | amount => 6
  | funct | imm | index => 0

/-- The number of bits of a place. -/
def width : Part → Nat
  | opcode | funct => 6
  | rs | rt | rd | amount => 5
  | imm => 16
  | index => 26

end Part

/-- The number that stands in a place of a word. -/
def Word.field (w : Word) (p : Part) : Nat := w.toNat / 2 ^ p.shift % 2 ^ p.width

/-- The places of a layout, from the highest bits down. -/
def Op.Format.parts : Op.Format → List Part
  | r => [.opcode, .rs, .rt, .rd, .amount, .funct]
  | i => [.opcode, .rs, .rt, .imm]
  | j => [.opcode, .index]

namespace Fields

/-- The layout of some fields. -/
def format : Fields → Op.Format
  | r .. => .r
  | i .. => .i
  | j .. => .j

/-- The number that some fields have for a place of their layout. -/
def get : Fields → Part → Nat
  | r opcode .., .opcode | i opcode .., .opcode | j opcode _, .opcode => opcode.toNat
  | r _ rs .., .rs | i _ rs .., .rs => rs.toNat
  | r _ _ rt .., .rt | i _ _ rt _, .rt => rt.toNat
  | r _ _ _ rd .., .rd => rd.toNat
  | r _ _ _ _ amount _, .amount => amount.toNat
  | r _ _ _ _ _ funct, .funct => funct.toNat
  | i _ _ _ imm, .imm => imm.toNat
  | j _ index, .index => index.toNat
  | _, _ => 0

/-- Fields in range stand in their places. -/
theorem field_toWord {f : Fields} (h : f.IsProper) {p : Part} (hp : p ∈ f.format.parts) : f.toWord.field p = f.get p := by
  cases f with
  | r opcode rs rt rd amount funct =>
    have word := toNat_toWord_r h
    obtain ⟨ho, hs, ht, hd, ha, hf⟩ := h
    have ho : opcode.toNat < 64 := by
      rcases ho with rfl | rfl
      · decide
      · decide
    rw [Word.field, word]
    cases p with
    | imm | index => simp [format, Op.Format.parts] at hp
    | _ => simp only [Part.shift, Part.width, get]; omega
  | i opcode rs rt imm =>
    have word := toNat_toWord_i h
    obtain ⟨ho, -, -, -, -, hs, ht⟩ := h
    have hi := imm.toNat_lt
    rw [Word.field, word]
    cases p with
    | rd | amount | funct | index => simp [format, Op.Format.parts] at hp
    | _ => simp only [Part.shift, Part.width, get]; omega
  | j opcode index =>
    have word := toNat_toWord_j h
    obtain ⟨ho, hi⟩ := h
    have ho : opcode.toNat < 64 := by
      rcases ho with rfl | rfl
      · decide
      · decide
    rw [Word.field, word]
    cases p with
    | opcode | index => simp only [Part.shift, Part.width, get]; omega
    | _ => simp [format, Op.Format.parts] at hp

end Fields

/-! ## Operands in their places -/

namespace Instr

/-- The integers that the operands stand for, in the order of the operation's slots. -/
def values : Instr → List Int
  | shift _ rd rt amount => [rd.num.val, rt.num.val, amount.toNat]
  | shiftBy _ a b c | arith _ a b c => [a.num.val, b.num.val, c.num.val]
  | jr rs => [rs.num.val]
  | jalr rd rs => [rd.num.val, rs.num.val]
  | syscall | halt | eret => []
  | mfs rt sel | mts rt sel => [rt.num.val, sel.num.val]
  | branchZero _ rs offset => [rs.num.val, offset.toInt]
  | jump _ index => [index.toNat]
  | branch _ a b v | signed _ a b v | lw a b v | sw a b v => [a.num.val, b.num.val, v.toInt]
  | bits _ rt rs imm => [rt.num.val, rs.num.val, imm.toNat]
  | lui rt imm => [rt.num.val, imm.toNat]

theorem format_toFields (i : Instr) : i.toFields.format = i.op.format := by
  cases i with
  | branchZero k => cases k <;> rfl
  | _ => rfl

theorem part_mem (op : Op) : ∀ slot ∈ op.slots, slot.part ∈ op.format.parts := by
  cases op <;> (try rename_i k; cases k) <;> decide

theorem keyParts_mem (op : Op) : ∀ p ∈ op.keyParts, p ∈ op.format.parts := by
  cases op <;> (try rename_i k; cases k) <;> decide

/-- Every operand has its number in the place of its slot, in two's complement if it is below zero. -/
theorem get_values {i : Instr} (h : i.IsLegal) :
    List.Forall₂ (fun slot v => (i.toFields.get slot.part : Int) = v % 2 ^ slot.part.width) i.op.slots i.values := by
  have unsigned {n k : Nat} (small : n < 2 ^ k) : (n : Int) = (n : Int) % 2 ^ k :=
    (Int.emod_eq_of_lt (Int.natCast_nonneg n) (by exact_mod_cast small)).symm
  have reg (r : Reg) : (r.toByte.toNat : Int) = (r.num.val : Int) % 2 ^ 5 := by
    rw [r.toNat_toByte]
    exact unsigned r.num_lt
  have sel (s : SReg) : ((UInt8.ofNat s.num.val).toNat : Int) = (s.num.val : Int) % 2 ^ 5 := by cases s <;> rfl
  have signed (v : Int16) : (v.toUInt16.toNat : Int) = v.toInt % 2 ^ 16 := by
    show (v.toBitVec.toNat : Int) = v.toBitVec.toInt % 2 ^ 16
    rw [BitVec.toInt_eq_toNat_bmod, show (2 ^ 16 : Int) = ((2 ^ 16 : Nat) : Int) from rfl, Int.bmod_emod]
    exact unsigned v.toBitVec.isLt
  cases i with
  | shift k rd rt amount => exact .cons (reg rd) (.cons (reg rt) (.cons (unsigned h) .nil))
  | shiftBy k a b c | arith k a b c => exact .cons (reg a) (.cons (reg b) (.cons (reg c) .nil))
  | jr rs => exact .cons (reg rs) .nil
  | jalr rd rs => exact .cons (reg rd) (.cons (reg rs) .nil)
  | syscall | halt | eret => exact .nil
  | mfs rt s | mts rt s => exact .cons (reg rt) (.cons (sel s) .nil)
  | branchZero k rs offset => cases k <;> exact .cons (reg rs) (.cons (signed offset) .nil)
  | jump link index => exact .cons (unsigned h) .nil
  | branch k a b v | signed k a b v | lw a b v | sw a b v => exact .cons (reg a) (.cons (reg b) (.cons (signed v) .nil))
  | bits k rt rs imm => exact .cons (reg rt) (.cons (reg rs) (.cons (unsigned imm.toNat_lt) .nil))
  | lui rt imm => exact .cons (reg rt) (.cons (unsigned imm.toNat_lt) .nil)

/-- The numbers of the operation stand in the places of its key: the opcode, and its sub-code if there is a second place. -/
theorem get_key (i : Instr) :
    ∀ p ∈ i.op.keyParts, i.toFields.get p = if p = .opcode then i.op.opcode.toNat else i.op.subCode.toNat := by
  cases i with
  | shift k | shiftBy k | arith k => exact List.forall_mem_cons.2 ⟨rfl, List.forall_mem_singleton.2 rfl⟩
  | jr | jalr | syscall | halt | mfs | mts | eret => exact List.forall_mem_cons.2 ⟨rfl, List.forall_mem_singleton.2 rfl⟩
  | branchZero k =>
    cases k with
    | ltz | gez => exact List.forall_mem_cons.2 ⟨rfl, List.forall_mem_singleton.2 rfl⟩
    | lez | gtz => exact List.forall_mem_singleton.2 rfl
  | jump k | branch k | signed k | bits k => cases k <;> exact List.forall_mem_singleton.2 rfl
  | lui | lw | sw => exact List.forall_mem_singleton.2 rfl

/-- Places that the operation does not use hold zero. -/
theorem get_unused (i : Instr) (p : Part) : p ∈ i.op.parts ∨ i.toFields.get p = 0 := by
  cases i with
  | shift k | shiftBy k | arith k | branchZero k | jump k | branch k | signed k | bits k =>
    cases k <;> cases p <;> first | exact .inr rfl | exact .inl (List.mem_of_elem_eq_true rfl)
  | _ => cases p <;> first | exact .inr rfl | exact .inl (List.mem_of_elem_eq_true rfl)

/-! ## Places of an instruction's word -/

variable {i : Instr} {p : Part}

theorem field_encode (h : i.IsLegal) (hp : p ∈ i.op.format.parts) : i.encode.field p = i.toFields.get p :=
  Fields.field_toWord (isProper_toFields h) (by rwa [format_toFields])

/-- In the word of a legal instruction every operand stands in the place of its slot. -/
theorem field_values (h : i.IsLegal) :
    List.Forall₂ (fun slot v => (i.encode.field slot.part : Int) = v % 2 ^ slot.part.width) i.op.slots i.values := by
  obtain ⟨length, get⟩ := List.forall₂_iff_get.1 (get_values h)
  refine List.forall₂_iff_get.2 ⟨length, fun k hk hk' => ?_⟩
  rw [field_encode h (part_mem i.op _ (List.get_mem _ _))]
  exact get k hk hk'

theorem field_key (h : i.IsLegal) (hp : p ∈ i.op.keyParts) :
    i.encode.field p = if p = .opcode then i.op.opcode.toNat else i.op.subCode.toNat := by
  rw [field_encode h (keyParts_mem i.op p hp), get_key i p hp]

theorem field_unused (h : i.IsLegal) (hp : p ∈ i.op.format.parts) (unused : p ∉ i.op.parts) : i.encode.field p = 0 := by
  rw [field_encode h hp, (get_unused i p).resolve_left unused]

end Instr

end M32
