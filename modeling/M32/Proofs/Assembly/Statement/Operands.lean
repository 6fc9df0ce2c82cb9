/-
  Operands: which words a slot takes, and where their values stand in the word of the instruction.

  1. `Op.Slot.Denotes` says which integer a word denotes in a slot: by the name of a register, or as a literal in the range of
     the slot.  It is never more than one (`Denotes.unique`).  `Denote` is the same for a row of words, one for each slot.
  2. `Reads` ties a reader to its slot.  It succeeds on the words that denote an integer there, and gives this integer.
     `ReadsRow` ties the reader of a row to its slots, and follows from the readers of the words (`ReadsRow.cons`).
  3. The readers of all operations are such rows (`Statement.reads_readOperands`): slots, readers and instructions agree.
  4. `Statement.operands_land` says so of lines, and where the integers stand in the word of the instruction.
-/
import M32.Proofs.Assembly.Statement.Labels
import M32.Proofs.Assembly.Statement.Rewritten
import M32.Proofs.Instr.Places
import M32.Proofs.Register

namespace M32

/-! ## What words denote -/

namespace Op.Slot

variable {slot : Op.Slot} {token : List Char} {v v' : Int}

/-- The integers that a slot has room for. -/
def Takes : Op.Slot → Int → Prop
  | rd, v | rs, v | rt, v | amount, v => 0 ≤ v ∧ v ≤ 31
  | signed, v => -32768 ≤ v ∧ v ≤ 32767
  | unsigned, v => 0 ≤ v ∧ v ≤ 65535
  | index, v => 0 ≤ v ∧ v < 2 ^ 26
  | selector, v => 0 ≤ v ∧ v ≤ 7

/-- Whether a word names a register of the kind that a slot is for, and the number of this register. -/
def Names : Op.Slot → List Char → Int → Prop
  | rd, token, v | rs, token, v | rt, token, v => ∃ r : Reg, r.IsCalled token ∧ v = r.num.val
  | selector, token, v => ∃ s : SReg, s.IsCalled token ∧ v = s.num.val
  | amount, _, _ | signed, _, _ | unsigned, _, _ | index, _, _ => False

/-- Whether a word denotes an integer in a slot. -/
def Denotes (slot : Op.Slot) (token : List Char) (v : Int) : Prop :=
  slot.Names token v ∨ Literal.read? token = some v ∧ slot.Takes v

theorem names_iff (h : slot = .rd ∨ slot = .rs ∨ slot = .rt) : slot.Names token v ↔ ∃ r : Reg, r.IsCalled token ∧ v = r.num.val := by
  rcases h with rfl | rfl | rfl
  · exact Iff.rfl
  · exact Iff.rfl
  · exact Iff.rfl

/-- A word that names a register is the literal of no other one. -/
theorem Names.literal (word : Text.IsWord token) (h : slot.Names token v) (literal : Literal.read? token = some v') : v' = v := by
  have reg (h : ∃ r : Reg, r.IsCalled token ∧ v = r.num.val) : v' = v := by
    obtain ⟨r, called, rfl⟩ := h
    exact called.value word literal
  cases slot with
  | rd | rs | rt => exact reg h
  | selector =>
    obtain ⟨s, called, rfl⟩ := h
    rw [called.literal word] at literal
    cases literal
  | amount | signed | unsigned | index => exact h.elim

theorem Names.unique (word : Text.IsWord token) (h : slot.Names token v) (h' : slot.Names token v') : v' = v := by
  have reg (h : ∃ r : Reg, r.IsCalled token ∧ v = r.num.val) (h' : ∃ r : Reg, r.IsCalled token ∧ v' = r.num.val) : v' = v := by
    obtain ⟨r, called, rfl⟩ := h
    obtain ⟨r', called', rfl⟩ := h'
    have same := ((Reg.read?_eq_some_iff word).2 called).symm.trans ((Reg.read?_eq_some_iff word).2 called')
    cases same
    rfl
  cases slot with
  | rd | rs | rt => exact reg h h'
  | selector =>
    obtain ⟨s, called, rfl⟩ := h
    obtain ⟨s', called', rfl⟩ := h'
    have same := ((SReg.read?_eq_some_iff word).2 (.inl called)).symm.trans ((SReg.read?_eq_some_iff word).2 (.inl called'))
    cases same
    rfl
  | amount | signed | unsigned | index => exact h.elim

/-- A word denotes one integer in a slot, if any. -/
theorem Denotes.unique (word : Text.IsWord token) (h : slot.Denotes token v) (h' : slot.Denotes token v') : v' = v := by
  rcases h with name | ⟨literal, -⟩
  · rcases h' with name' | ⟨literal', -⟩
    · exact name.unique word name'
    · exact name.literal word literal'
  · rcases h' with name' | ⟨literal', -⟩
    · exact (name'.literal word literal).symm
    · exact Option.some.inj (literal'.symm.trans literal)

end Op.Slot

/-- Whether there is a word for each slot, and each of them denotes an integer in its slot. -/
inductive Denote : List Op.Slot → List (List Char) → List Int → Prop where
  | nil : Denote [] [] []
  | cons {slot : Op.Slot} {token : List Char} {v : Int} {slots : List Op.Slot} {tokens : List (List Char)} {vs : List Int}
      (first : slot.Denotes token v) (rest : Denote slots tokens vs) : Denote (slot :: slots) (token :: tokens) (v :: vs)

namespace Denote

variable {slots : List Op.Slot} {tokens : List (List Char)} {vs vs' : List Int}

theorem length_eq (h : Denote slots tokens vs) : tokens.length = slots.length := by
  induction h with
  | nil => rfl
  | cons _ _ ih => rw [List.length_cons, List.length_cons, ih]

theorem unique (words : ∀ token ∈ tokens, Text.IsWord token) (h : Denote slots tokens vs) (h' : Denote slots tokens vs') :
    vs' = vs := by
  induction h generalizing vs' with
  | nil =>
    cases h'
    rfl
  | cons first rest ih =>
    cases h' with
    | cons first' rest' =>
      obtain ⟨word, words⟩ := List.forall_mem_cons.1 words
      rw [first.unique word first', ih words rest']

end Denote

namespace Assembly

/-! ## Readers -/

section Readers

variable {α : Type} {slot : Op.Slot} {cs : List Char}

/-- Whether a reader gives the integer that a word denotes in a slot, and fails only if it denotes none. -/
structure Reads (slot : Op.Slot) (cs : List Char) (num : α → Int) (x : Except Fault α) : Prop where
  gives : Gives (fun a => slot.Denotes cs (num a)) x
  succeeds : (∃ v, slot.Denotes cs v) → ∃ a, x = .ok a

namespace Operand

theorem unsigned_eq_ok_iff {bits n : Nat} :
    unsigned bits slot cs = .ok n ↔ Literal.read? cs = some (n : Int) ∧ (n : Int) < 2 ^ bits := by
  have fits (v : Int) : fitsUnsigned bits v = true ↔ 0 ≤ v ∧ v < 2 ^ bits := by
    simp [fitsUnsigned, Nat.shiftLeft_eq]
  unfold unsigned integer
  cases Literal.read? cs with
  | none => simp
  | some v =>
    by_cases h : 0 ≤ v ∧ v < 2 ^ bits
    · simp only [(fits v).2 h, if_true, Except.ok.injEq, Option.some.injEq]
      omega
    · simp only [mt (fits v).1 h, if_false, reduceCtorEq, false_iff, Option.some.injEq]
      rintro ⟨rfl, small⟩
      exact h ⟨Int.natCast_nonneg n, small⟩

theorem signed_eq_ok_iff {v : Int16} : signed slot cs = .ok v ↔ Literal.read? cs = some v.toInt := by
  have fits (v : Int) : fitsSigned 16 v = true ↔ -2 ^ 15 ≤ v ∧ v < 2 ^ 15 := by
    simp [fitsSigned]
    omega
  unfold signed integer
  cases Literal.read? cs with
  | none => simp
  | some u =>
    by_cases h : -2 ^ 15 ≤ u ∧ u < 2 ^ 15
    · simp only [(fits u).2 h, if_true, Except.ok.injEq, Option.some.injEq]
      have same := Int16.toInt_ofInt_of_le h.1 h.2
      constructor
      · rintro rfl
        exact same.symm
      · rintro rfl
        exact Int16.ofInt_toInt v
    · simp only [mt (fits u).1 h, if_false, reduceCtorEq, false_iff, Option.some.injEq]
      rintro rfl
      exact h ⟨v.le_toInt, v.toInt_lt⟩

/-- A reader of so many bits without a sign, for a slot without names. -/
theorem reads_unsigned {bits : Nat} {num : α → Int} {ofNat : Nat → α} (names : ∀ v, ¬ slot.Names cs v)
    (takes : ∀ v : Int, slot.Takes v ↔ 0 ≤ v ∧ v < 2 ^ bits) (back : ∀ n : Nat, (n : Int) < 2 ^ bits → num (ofNat n) = n) :
    Reads slot cs num ((unsigned bits slot cs).map ofNat) := by
  constructor
  · have gives : Gives (fun n : Nat => Literal.read? cs = some (n : Int) ∧ (n : Int) < 2 ^ bits) (unsigned bits slot cs) :=
      fun n hn => unsigned_eq_ok_iff.1 hn
    refine gives.map fun n ⟨literal, small⟩ => .inr ?_
    rw [back n small]
    exact ⟨literal, (takes n).2 ⟨Int.natCast_nonneg n, small⟩⟩
  · rintro ⟨v, name | ⟨literal, range⟩⟩
    · exact absurd name (names v)
    · obtain ⟨lo, hi⟩ := (takes v).1 range
      have whole : (v.toNat : Int) = v := Int.toNat_of_nonneg lo
      rw [unsigned_eq_ok_iff.2 ⟨whole ▸ literal, whole ▸ hi⟩]
      exact ⟨_, rfl⟩

theorem reads_amount (cs : List Char) : Reads .amount cs (fun n : UInt8 => (n.toNat : Int)) (amount cs) := by
  refine reads_unsigned (fun _ => id) (fun v => ?_) fun n small => ?_
  · simp only [Op.Slot.Takes]
    omega
  · rw [UInt8.toNat_ofNat', Nat.mod_eq_of_lt (by omega)]

theorem reads_imm (cs : List Char) : Reads .unsigned cs (fun n : UInt16 => (n.toNat : Int)) (imm cs) := by
  refine reads_unsigned (fun _ => id) (fun v => ?_) fun n small => ?_
  · simp only [Op.Slot.Takes]
    omega
  · rw [UInt16.toNat_ofNat', Nat.mod_eq_of_lt (by omega)]

theorem reads_index (cs : List Char) : Reads .index cs (fun n : Word => (n.toNat : Int)) (index cs) := by
  refine reads_unsigned (fun _ => id) (fun v => Iff.rfl) fun n small => ?_
  rw [UInt32.toNat_ofNat', Nat.mod_eq_of_lt (by omega)]

theorem reads_signed (cs : List Char) : Reads .signed cs Int16.toInt (signed .signed cs) := by
  constructor
  · intro v hv
    have lo := v.le_toInt
    have hi := v.toInt_lt
    exact .inr ⟨signed_eq_ok_iff.1 hv, by omega, by omega⟩
  · rintro ⟨v, name | ⟨literal, lo, hi⟩⟩
    · exact name.elim
    · have same := Int16.toInt_ofInt_of_le (n := v) (by omega) (by omega)
      exact ⟨Int16.ofInt v, signed_eq_ok_iff.2 (literal.trans (congrArg some same.symm))⟩

theorem reads_sel (word : Text.IsWord cs) : Reads .selector cs (fun s : SReg => (s.num.val : Int)) (sel cs) := by
  have sel_eq_ok_iff {s : SReg} : sel cs = .ok s ↔ SReg.read? cs = some s := by
    unfold sel
    cases SReg.read? cs with
    | none => simp
    | some s' => simp
  constructor
  · intro s hs
    rcases (SReg.read?_eq_some_iff word).1 (sel_eq_ok_iff.1 hs) with called | literal
    · exact .inl ⟨s, called, rfl⟩
    · have small := s.num.isLt
      exact .inr ⟨literal, by omega, by omega⟩
  · rintro ⟨v, ⟨s, called, -⟩ | ⟨literal, lo, hi⟩⟩
    · exact ⟨s, sel_eq_ok_iff.2 ((SReg.read?_eq_some_iff word).2 (.inl called))⟩
    · obtain ⟨s, num⟩ := SReg.exists_num ⟨v.toNat, by omega⟩
      have same : (s.num.val : Int) = v := by rw [num]; exact Int.toNat_of_nonneg lo
      exact ⟨s, sel_eq_ok_iff.2 ((SReg.read?_eq_some_iff word).2 (.inr (same ▸ literal)))⟩

theorem reads_reg (word : Text.IsWord cs) (h : slot = .rd ∨ slot = .rs ∨ slot = .rt) :
    Reads slot cs (fun r : Reg => (r.num.val : Int)) (reg slot cs) := by
  unfold reg
  cases read : Reg.read? cs with
  | some r => exact ⟨.ok (.inl ((Op.Slot.names_iff h).2 ⟨r, (Reg.read?_eq_some_iff word).1 read, rfl⟩)), fun _ => ⟨r, rfl⟩⟩
  | none =>
    have names (v : Int) : ¬ slot.Names cs v := fun name => by
      obtain ⟨r, called, -⟩ := (Op.Slot.names_iff h).1 name
      rw [(Reg.read?_eq_some_iff word).2 called] at read
      cases read
    refine reads_unsigned names (fun v => ?_) fun n small => ?_
    · rcases h with rfl | rfl | rfl <;> simp only [Op.Slot.Takes] <;> omega
    · rw [Reg.ofBits, Fin.val_ofNat, Nat.mod_eq_of_lt (by omega)]

end Operand

end Readers

/-! ## Operations with their operands -/

namespace Statement

open Operand

variable {op : Op} {args : List (List Char)}

/-- Whether the operand of a jump is the name of a label.  A literal never is. -/
def NamesLabel (op : Op) (args : List (List Char)) : Prop :=
  ∃ link name, op = .jump link ∧ args = [name] ∧ Label.isName name = true ∧ Literal.read? name = none

/-- What a reader of a whole row of operands gives: integers that they denote in their slots. -/
structure ReadsRow {α : Type} (slots : List Op.Slot) (args : List (List Char)) (P : List Int → α → Prop) (x : Except Fault α) :
    Prop where
  gives : Gives (fun a => ∃ vs, Denote slots args vs ∧ P vs a) x
  succeeds : (∃ vs, Denote slots args vs) → ∃ a, x = .ok a

namespace ReadsRow

variable {α β : Type} {slot : Op.Slot} {cs : List Char} {slots : List Op.Slot} {P : List Int → β → Prop}

theorem nil {b : β} (h : P [] b) : ReadsRow [] [] P (.ok b) := ⟨.ok ⟨[], .nil, h⟩, fun _ => ⟨b, rfl⟩⟩

/-- The reader of a slot, before those of the slots that follow. -/
theorem cons {num : α → Int} {x : Except Fault α} {f : α → Except Fault β} (first : Reads slot cs num x)
    (rest : ∀ a, ReadsRow slots args (fun vs => P (num a :: vs)) (f a)) : ReadsRow (slot :: slots) (cs :: args) P (x >>= f) := by
  constructor
  · refine first.gives.bind fun a denotes b hb => ?_
    obtain ⟨vs, denote, holds⟩ := (rest a).gives b hb
    exact ⟨num a :: vs, .cons denotes denote, holds⟩
  · rintro ⟨_, denote⟩
    cases denote with
    | cons denotes denote =>
      obtain ⟨a, rfl⟩ := first.succeeds ⟨_, denotes⟩
      exact (rest a).succeeds ⟨_, denote⟩

theorem of_length_ne (h : args.length ≠ slots.length) (e : Fault) : ReadsRow slots args P (.error e) :=
  ⟨.error e, fun ⟨_, denote⟩ => absurd denote.length_eq h⟩

end ReadsRow

/-- Whether a statement is an instruction of an operation, with some integers for its operands. -/
def IsOf (op : Op) (vs : List Int) (s : Statement) : Prop := ∃ i : Instr, s = .instr i ∧ i.op = op ∧ i.values = vs

theorem readOperands_of_length_ne (h : args.length ≠ op.slots.length) :
    readOperands op args = .error (.operandCount op args.length) := by
  unfold readOperands
  split
  case h_19 => rfl
  all_goals exact absurd rfl h

/-- A jump whose operand is no label has an index. -/
theorem reads_readJump {link : Bool} {cs : List Char} (operand : ¬ NamesLabel (.jump link) [cs]) :
    ReadsRow [.index] [cs] (IsOf (.jump link)) (readJump link cs) := by
  have row : ReadsRow [.index] [cs] (IsOf (.jump link)) (index cs >>= fun i => .ok (.instr (.jump link i))) :=
    .cons (reads_index cs) fun i => .nil ⟨_, rfl, rfl, rfl⟩
  unfold readJump
  split
  · exact row
  · next no_literal =>
    have no_name : ¬ Label.isName cs = true := fun name => operand ⟨link, cs, rfl, rfl, name, no_literal⟩
    rw [if_neg no_name]
    refine ⟨.error _, ?_⟩
    rintro ⟨_, denote⟩
    cases denote with
    | cons denotes _ =>
      rcases denotes with name | ⟨literal, -⟩
      · exact name.elim
      · rw [no_literal] at literal
        cases literal

theorem reads_readOperands (words : ∀ a ∈ args, Text.IsWord a) (operand : ¬ NamesLabel op args) :
    ReadsRow op.slots args (IsOf op) (readOperands op args) := by
  have rd {a : List Char} (word : Text.IsWord a) : Reads .rd a (fun r : Reg => (r.num.val : Int)) (reg .rd a) :=
    reads_reg word (.inl rfl)
  have rs {a : List Char} (word : Text.IsWord a) : Reads .rs a (fun r : Reg => (r.num.val : Int)) (reg .rs a) :=
    reads_reg word (.inr (.inl rfl))
  have rt {a : List Char} (word : Text.IsWord a) : Reads .rt a (fun r : Reg => (r.num.val : Int)) (reg .rt a) :=
    reads_reg word (.inr (.inr rfl))
  by_cases h : args.length = op.slots.length
  · cases op with
    | syscall | halt | eret =>
      cases List.length_eq_zero_iff.1 h
      exact .nil ⟨_, rfl, rfl, rfl⟩
    | jr =>
      obtain ⟨a, rfl⟩ := List.length_eq_one_iff.1 h
      exact .cons (rs (words a (by simp))) fun _ => .nil ⟨_, rfl, rfl, rfl⟩
    | jump link =>
      obtain ⟨a, rfl⟩ := List.length_eq_one_iff.1 h
      exact reads_readJump operand
    | jalr =>
      obtain ⟨a, b, rfl⟩ := List.length_eq_two.1 h
      obtain ⟨ha, hb⟩ : Text.IsWord a ∧ Text.IsWord b := by simpa using words
      exact .cons (rd ha) fun _ => .cons (rs hb) fun _ => .nil ⟨_, rfl, rfl, rfl⟩
    | mfs | mts =>
      obtain ⟨a, b, rfl⟩ := List.length_eq_two.1 h
      obtain ⟨ha, hb⟩ : Text.IsWord a ∧ Text.IsWord b := by simpa using words
      exact .cons (rt ha) fun _ => .cons (reads_sel hb) fun _ => .nil ⟨_, rfl, rfl, rfl⟩
    | branchZero k =>
      obtain ⟨a, b, rfl⟩ := List.length_eq_two.1 h
      exact .cons (rs (words a (by simp))) fun _ => .cons (reads_signed b) fun _ => .nil ⟨_, rfl, rfl, rfl⟩
    | lui =>
      obtain ⟨a, b, rfl⟩ := List.length_eq_two.1 h
      exact .cons (rt (words a (by simp))) fun _ => .cons (reads_imm b) fun _ => .nil ⟨_, rfl, rfl, rfl⟩
    | shift k =>
      obtain ⟨a, b, c, rfl⟩ := List.length_eq_three.1 h
      obtain ⟨ha, hb, -⟩ : Text.IsWord a ∧ Text.IsWord b ∧ Text.IsWord c := by simpa using words
      exact .cons (rd ha) fun _ => .cons (rt hb) fun _ => .cons (reads_amount c) fun _ => .nil ⟨_, rfl, rfl, rfl⟩
    | shiftBy k =>
      obtain ⟨a, b, c, rfl⟩ := List.length_eq_three.1 h
      obtain ⟨ha, hb, hc⟩ : Text.IsWord a ∧ Text.IsWord b ∧ Text.IsWord c := by simpa using words
      exact .cons (rd ha) fun _ => .cons (rt hb) fun _ => .cons (rs hc) fun _ => .nil ⟨_, rfl, rfl, rfl⟩
    | arith k =>
      obtain ⟨a, b, c, rfl⟩ := List.length_eq_three.1 h
      obtain ⟨ha, hb, hc⟩ : Text.IsWord a ∧ Text.IsWord b ∧ Text.IsWord c := by simpa using words
      exact .cons (rd ha) fun _ => .cons (rs hb) fun _ => .cons (rt hc) fun _ => .nil ⟨_, rfl, rfl, rfl⟩
    | branch k =>
      obtain ⟨a, b, c, rfl⟩ := List.length_eq_three.1 h
      obtain ⟨ha, hb, -⟩ : Text.IsWord a ∧ Text.IsWord b ∧ Text.IsWord c := by simpa using words
      exact .cons (rs ha) fun _ => .cons (rt hb) fun _ => .cons (reads_signed c) fun _ => .nil ⟨_, rfl, rfl, rfl⟩
    | signed k | lw | sw =>
      obtain ⟨a, b, c, rfl⟩ := List.length_eq_three.1 h
      obtain ⟨ha, hb, -⟩ : Text.IsWord a ∧ Text.IsWord b ∧ Text.IsWord c := by simpa using words
      exact .cons (rt ha) fun _ => .cons (rs hb) fun _ => .cons (reads_signed c) fun _ => .nil ⟨_, rfl, rfl, rfl⟩
    | bits k =>
      obtain ⟨a, b, c, rfl⟩ := List.length_eq_three.1 h
      obtain ⟨ha, hb, -⟩ : Text.IsWord a ∧ Text.IsWord b ∧ Text.IsWord c := by simpa using words
      exact .cons (rt ha) fun _ => .cons (rs hb) fun _ => .cons (reads_imm c) fun _ => .nil ⟨_, rfl, rfl, rfl⟩
  · rw [readOperands_of_length_ne h]
    exact .of_length_ne h _

/-- The operands of an operation are accepted or refused, and stand in their places.  In a line of an operation and operands
    that is no jump to a label:
    1. The line is refused unless there is an operand for each slot of the operation that denotes an integer in it.
    2. If there is, the line holds an instruction of this operation.  In its word stand the opcode and the sub-code in the
       places of the key, each integer, in two's complement, in the place of its slot, and zero in each place that the
       operation does not use. -/
theorem operands_land {op : Op} {line w : List Char} {args : List (List Char)} (words : Text.words line = w :: args)
    (name : Op.ofName? w = some op) (operand : ¬ NamesLabel op args) :
    ((∃ e, read line = .error e) ↔ ¬ ∃ vs, Denote op.slots args vs) ∧
    ∀ vs, Denote op.slots args vs → ∃ i : Instr, read line = .ok (some (.instr i)) ∧
      (∀ p ∈ op.keyParts, i.encode.field p = if p = .opcode then op.opcode.toNat else op.subCode.toNat) ∧
      List.Forall₂ (fun slot v => (i.encode.field slot.part : Int) = v % 2 ^ slot.part.width) op.slots vs ∧
      ∀ p ∈ op.format.parts, p ∉ op.parts → i.encode.field p = 0 := by
  have read_eq := read_opLine words name
  have are_words : ∀ a ∈ args, Text.IsWord a := fun a ha => by
    have mem : a ∈ Text.words line := words ▸ List.mem_cons_of_mem w ha
    exact ⟨Text.words_ne_nil line a mem, Text.words_not_blank line a mem⟩
  have row := reads_readOperands are_words operand
  have accepted {vs : List Int} (denote : Denote op.slots args vs) :
      ∃ i : Instr, read line = .ok (some (.instr i)) ∧ i.op = op ∧ i.values = vs := by
    obtain ⟨s, hs⟩ := row.succeeds ⟨vs, denote⟩
    obtain ⟨vs', denote', i, rfl, op_eq, values⟩ := row.gives s hs
    refine ⟨i, ?_, op_eq, values.trans (denote.unique are_words denote')⟩
    rw [read_eq, hs]
    rfl
  refine ⟨⟨?_, ?_⟩, ?_⟩
  · rintro ⟨e, refused⟩ ⟨vs, denote⟩
    obtain ⟨i, read_ok, -⟩ := accepted denote
    cases refused.symm.trans read_ok
  · intro none_denoted
    cases operands : readOperands op args with
    | error e => exact ⟨e, by rw [read_eq, operands]; rfl⟩
    | ok s =>
      obtain ⟨vs, denote, -⟩ := row.gives s operands
      exact absurd ⟨vs, denote⟩ none_denoted
  · intro vs denote
    obtain ⟨i, read_ok, rfl, rfl⟩ := accepted denote
    have legal : i.IsLegal := isWritten_of_read read_ok
    exact ⟨i, read_ok, fun p hp => Instr.field_key legal hp, Instr.field_values legal, fun p hp => Instr.field_unused legal hp⟩

/-- A register by its alias, one by its number and an immediate below zero, and one more than the largest immediate. -/
theorem operands_land_addi :
    Text.words "ADDI sp r29 -0x8".toList = ["ADDI", "sp", "r29", "-0x8"].map String.toList ∧
    Op.ofName? "ADDI".toList = some (.signed .addi) ∧
    ¬ NamesLabel (.signed .addi) (["sp", "r29", "-0x8"].map String.toList) ∧
    Denote [.rt, .rs, .signed] (["sp", "r29", "-0x8"].map String.toList) [29, 29, -8] ∧
    (∃ i : Instr, read "ADDI sp r29 -0x8".toList = .ok (some (.instr i)) ∧ i.encode.field .opcode = 0x08 ∧
      i.encode.field .rt = 29 ∧ i.encode.field .rs = 29 ∧ i.encode.field .imm = 0xFFF8) ∧
    (∃ e, read "addi sp r29 0x8000".toList = .error e) ∧
    ¬ ∃ vs, Denote [.rt, .rs, .signed] (["sp", "r29", "0x8000"].map String.toList) vs := by
  have words : Text.words "ADDI sp r29 -0x8".toList = ["ADDI", "sp", "r29", "-0x8"].map String.toList := by decide
  have name : Op.ofName? "ADDI".toList = some (.signed .addi) := by decide
  have no_label (args : List (List Char)) : ¬ NamesLabel (.signed .addi) args := fun ⟨_, _, is_jump, _⟩ => by cases is_jump
  have sp : Op.Slot.rt.Denotes "sp".toList 29 := .inl ⟨.sp, .inl ⟨"sp", by decide, by decide⟩, rfl⟩
  have r29 : Op.Slot.rs.Denotes "r29".toList 29 := .inl ⟨.sp, .inr ⟨['r'], by decide, "29".toList, rfl, by decide⟩, rfl⟩
  have offset : Op.Slot.signed.Denotes "-0x8".toList (-8) := .inr ⟨by decide, by decide, by decide⟩
  have denote : Denote [.rt, .rs, .signed] (["sp", "r29", "-0x8"].map String.toList) [29, 29, -8] :=
    .cons sp (.cons r29 (.cons offset .nil))
  obtain ⟨i, read_ok, key, fields, -⟩ := (operands_land words name (no_label _)).2 _ denote
  obtain ⟨rt, rs, imm⟩ : (i.encode.field .rt : Int) = 29 ∧ (i.encode.field .rs : Int) = 29 ∧ (i.encode.field .imm : Int) = 0xFFF8 := by
    simpa [Op.slots, Op.Slot.part, Part.width] using fields
  have refused : ∃ e, read "addi sp r29 0x8000".toList = .error e := ⟨.outOfRange "0x8000" .signed, rfl⟩
  have large : Text.words "addi sp r29 0x8000".toList = "addi".toList :: ["sp", "r29", "0x8000"].map String.toList := by decide
  exact ⟨words, name, no_label _, denote, ⟨i, read_ok, key .opcode (by decide), by omega, by omega, by omega⟩, refused,
    (operands_land large (by decide) (no_label _)).1.1 refused⟩

end Statement

end Assembly

end M32
