/-
  Lines of assembly text: what is written is read back.

  1. Every operand reads back from its text: registers, special registers and the numbers that their fields hold.
  2. The text of an instruction is a row of words, the first of which names the operation (`words_text`), so a line with
     it is that instruction (`read_instr`).
  3. `read_pseudo` is the same for pseudo-instructions.
  4. A name before a colon is a label, unless it is the word before the colon of the mark (`read_label`); that one
     spoils its line (`read_label_mark`).
  5. A jump with a name goes to this label, unless the name is an integer literal (`read_jump`).

  Any blanks may stand before what is written.
-/
import M32.Assembly.Statement
import M32.Proofs.Literal.Decimal
import M32.Proofs.Pseudo.Written

namespace M32.Assembly

open Text (IsWord IsTrim IsOneLine)

/-! ## Operands -/

namespace Operand

theorem reg_text (slot : Op.Slot) (r : Reg) : reg slot r.text.toList = .ok r := by
  rw [reg, Reg.read?_text]

theorem sel_text (s : SReg) : sel s.text.toList = .ok s := by
  rw [sel, SReg.read?_text]

theorem signed_toString (slot : Op.Slot) (v : Int16) : signed slot (toString v.toInt).toList = .ok v := by
  have lo := v.le_toInt
  have hi := v.toInt_lt
  have small : v.toInt.natAbs ≤ Literal.maxMagnitude := by
    simp only [Literal.maxMagnitude]; omega
  have fits : fitsSigned 16 v.toInt = true := by
    simp [fitsSigned]; omega
  rw [signed, integer, Literal.read?_toString_int small]
  simp [fits]

theorem unsigned_toString {bits n : Nat} (slot : Op.Slot) (h : n < 1 <<< bits) (small : bits ≤ 32) :
    unsigned bits slot (toString n).toList = .ok n := by
  have le : n ≤ Literal.maxMagnitude := by
    rw [Nat.shiftLeft_eq, Nat.one_mul] at h
    have := Nat.pow_le_pow_right (show 0 < 2 by omega) small
    simp only [Literal.maxMagnitude]; omega
  have fits : fitsUnsigned bits (n : Int) = true := by
    rw [fitsUnsigned, Bool.and_eq_true, decide_eq_true_iff, decide_eq_true_iff]
    exact ⟨Int.natCast_nonneg n, Int.ofNat_lt.2 h⟩
  rw [unsigned, integer, Literal.read?_toString le]
  simp [fits]

theorem imm_toString (v : UInt16) : imm (toString v.toNat).toList = .ok v := by
  rw [imm, unsigned_toString _ v.toNat_lt (by omega)]
  simp [Except.map]

theorem amount_toString {v : UInt8} (h : v.toNat < 32) : amount (toString v.toNat).toList = .ok v := by
  rw [amount, unsigned_toString _ h (by omega)]
  simp [Except.map]

theorem index_toString {v : Word} (h : v.toNat < Instr.indexLimit) : index (toString v.toNat).toList = .ok v := by
  rw [index, unsigned_toString _ h (by omega)]
  simp [Except.map]

end Operand

/-! ## Texts of instructions -/

theorem isWord_reg_text (r : Reg) : IsWord r.text.toList := by
  obtain ⟨r⟩ := r
  revert r
  decide

theorem isWord_sreg_text (s : SReg) : IsWord s.text.toList := by cases s <;> decide

theorem isWord_op_name (op : Op) : IsWord op.name.toList := by
  cases op <;> (try rename_i k; cases k) <;> decide

theorem isWord_operands (i : Instr) : ∀ w ∈ i.operands, IsWord w.toList := by
  cases i <;>
    simp only [Instr.operands, List.forall_mem_cons, List.not_mem_nil, false_implies, implies_true, and_true,
      isWord_reg_text, isWord_sreg_text, isWord_toString, isWord_toString_int]

theorem isWord_of_mem_words {i : Instr} {w : String} (h : w ∈ i.op.name :: i.operands) : IsWord w.toList := by
  rcases List.mem_cons.1 h with rfl | h
  · exact isWord_op_name _
  · exact isWord_operands i w h

theorem words_text (i : Instr) : Text.words i.text.toList = i.op.name.toList :: i.operands.map String.toList :=
  Text.words_join fun _ hw => isWord_of_mem_words hw

theorem isTrim_text (i : Instr) : IsTrim i.text.toList := Text.join_isTrim fun _ hw => isWord_of_mem_words hw

theorem isOneLine_text (i : Instr) : IsOneLine i.text.toList := Text.join_isOneLine fun _ hw => isWord_of_mem_words hw

/-- The text of an instruction starts with the name of its operation. -/
theorem toList_text (i : Instr) : ∃ rest, i.text.toList = i.op.name.toList ++ rest := by
  rw [Instr.text]
  cases i.operands with
  | nil => exact ⟨[], by rw [Text.join, String.intercalate_singleton, List.append_nil]⟩
  | cons a args => exact ⟨_, Text.toList_join_cons _ _ _⟩

/-! ## Reading -/

namespace Statement

theorem readOperands_operands {i : Instr} (h : i.IsLegal) :
    readOperands i.op (i.operands.map String.toList) = .ok (.instr i) := by
  cases i with
  | shift k rd rt amount =>
    simp only [Instr.op, Instr.operands, List.map_cons, List.map_nil, readOperands, Operand.reg_text,
      Operand.amount_toString h, bind, Except.bind, pure, Except.pure]
  | jump link index =>
    have small : index.toNat ≤ Literal.maxMagnitude := by
      have := index.toNat_lt
      simp only [Literal.maxMagnitude]; omega
    simp only [Instr.op, Instr.operands, List.map_cons, List.map_nil, readOperands, readJump,
      Literal.read?_toString small, Operand.index_toString h, Except.map]
  | _ =>
    simp only [Instr.op, Instr.operands, List.map_cons, List.map_nil, readOperands, Operand.reg_text, Operand.sel_text,
      Operand.imm_toString, Operand.signed_toString, bind, Except.bind, pure, Except.pure]

/-- No operation has the name of the mark of pseudo-instructions, nor does the mark start with one. -/
theorem dropPrefix?_mark_op (op : Op) (rest : List Char) : Text.dropPrefix? Pseudo.mark.toList (op.name.toList ++ rest) = none := by
  cases op <;> (try rename_i k; cases k) <;> rfl

theorem getLast?_op_name (op : Op) : op.name.toList.getLast? ≠ some ':' := by
  cases op <;> (try rename_i k; cases k) <;> decide

theorem labelForm?_instr (i : Instr) : labelForm? i.text.toList = none := by
  rw [labelForm?, words_text]
  cases hargs : i.operands.map String.toList with
  | nil =>
    show Text.dropEnd? ':' i.op.name.toList = none
    rw [Text.dropEnd?, if_neg (getLast?_op_name i.op)]
  | cons a args => rfl

/-- A line without a mark and not in the form of a label is read by its words. -/
theorem read_of_words {line cs : List Char} (ht : Text.trim line = cs) (h0 : cs ≠ []) (hc : cs.head? ≠ some '#')
    (hm : Text.dropPrefix? Pseudo.mark.toList cs = none) (hl : labelForm? cs = none) :
    read line = (readWords (Text.words cs)).map some := by
  have some_text : (cs.isEmpty || decide (cs.head? = some '#')) = false := by
    simp [List.isEmpty_eq_false_iff.2 h0, hc]
  rw [read, ht]
  simp only [some_text, hm, hl, Bool.false_eq_true, if_false]

theorem head?_op_name (op : Op) (rest : List Char) : (op.name.toList ++ rest).head? ≠ some '#' := by
  cases op <;> (try rename_i k; cases k) <;> simp [Op.name]

/-- An instruction that fits its fields reads back from its text, whatever blanks stand before it. -/
theorem read_instr {i : Instr} (h : i.IsLegal) {blanks : List Char} (hb : ∀ c ∈ blanks, Text.isBlank c = true) :
    read (blanks ++ i.text.toList) = .ok (some (.instr i)) := by
  obtain ⟨rest, hrest⟩ := toList_text i
  have trimmed : Text.trim (blanks ++ i.text.toList) = i.text.toList := by
    rw [Text.trim_indent hb, Text.trim_of_isTrim (isTrim_text i)]
  have some_text : i.text.toList ≠ [] := by
    rw [hrest]
    exact fun he => (isWord_op_name i.op).1 (List.append_eq_nil_iff.1 he).1
  rw [read_of_words trimmed some_text (by rw [hrest]; exact head?_op_name _ _)
    (by rw [hrest]; exact dropPrefix?_mark_op _ _) (labelForm?_instr i), words_text, readWords, Op.ofName?_name]
  simp only [readOperands_operands h]
  rfl

/-! ### Pseudo-instructions -/

theorem mark_isWord : IsWord Pseudo.mark.toList := by decide

theorem isTrim_pseudo_text (p : Pseudo) : IsTrim p.text.toList := by
  have ⟨body, body0⟩ := Pseudo.isTrim_body p
  rw [Pseudo.text, String.toList_append, String.toList_append]
  exact mark_isWord.isTrim.append body mark_isWord.1 body0 _

theorem isOneLine_pseudo_text (p : Pseudo) : IsOneLine p.text.toList := by
  have space : IsOneLine " ".toList := by decide
  rw [Pseudo.text, String.toList_append, String.toList_append]
  exact (mark_isWord.isOneLine.append space).append (Pseudo.isOneLine_body p)

/-- A pseudo-instruction reads back from its text. -/
theorem read_pseudo {p : Pseudo} (h : p.IsWritten) {blanks : List Char} (hb : ∀ c ∈ blanks, Text.isBlank c = true) :
    read (blanks ++ p.text.toList) = .ok (some (.pseudo p)) := by
  have trimmed : Text.trim (blanks ++ p.text.toList) = Pseudo.mark.toList ++ ' ' :: p.body.toList := by
    rw [Text.trim_indent hb, Text.trim_of_isTrim (isTrim_pseudo_text p), Pseudo.text, String.toList_append,
      String.toList_append, List.append_assoc]
    rfl
  have some_text : ((Pseudo.mark.toList ++ ' ' :: p.body.toList).isEmpty
      || decide ((Pseudo.mark.toList ++ ' ' :: p.body.toList).head? = some '#')) = false := rfl
  rw [read, trimmed]
  simp only [some_text, Text.dropPrefix?_append, Pseudo.read_body h, Bool.false_eq_true, if_false]

/-! ### Labels -/

theorem isPart_visible {c : Char} (h : Label.isPart c = true) : 0x20 < c.toNat ∧ c.toNat < 0x80 ∧ c ≠ ':' := by
  simp only [Label.isPart, Bool.or_eq_true, beq_iff_eq] at h
  rcases h with (h | rfl) | rfl
  · obtain ⟨lo, hi, colon⟩ := isAlphanum_toNat h
    refine ⟨by omega, by omega, ?_⟩
    rintro rfl
    exact colon rfl
  · decide
  · decide

theorem isPart_of_isName {name : List Char} (h : Label.isName name = true) : ∀ c ∈ name, Label.isPart c = true := by
  cases name with
  | nil => cases h
  | cons c cs =>
    rw [Label.isName, Bool.and_eq_true, List.all_eq_true] at h
    intro d hd
    rcases List.mem_cons.1 hd with rfl | hd
    · have start := h.1
      simp only [Label.isStart, Label.isPart, Char.isAlphanum, Bool.or_eq_true] at start ⊢
      rcases start with (start | start) | start
      · exact .inl (.inl (.inl start))
      · exact .inl (.inr start)
      · exact .inr start
    · exact h.2 d hd

theorem isWord_of_isName {name : List Char} (h : Label.isName name = true) : IsWord name := by
  refine ⟨?_, fun c hc => ?_⟩
  · rintro rfl
    cases h
  · obtain ⟨lo, hi, -⟩ := isPart_visible (isPart_of_isName h c hc)
    exact Text.isBlank_of_visible lo hi

theorem colon_notMem_of_isName {name : List Char} (h : Label.isName name = true) : ':' ∉ name := fun hc =>
  (isPart_visible (isPart_of_isName h _ hc)).2.2 rfl

/-- The word of the mark of pseudo-instructions. -/
theorem mark_eq : Pseudo.mark.toList = "macro".toList ++ [':'] := rfl

/-- Of all names only the word of the mark makes a label look like a pseudo-instruction. -/
theorem dropPrefix?_mark_label {name : List Char} (h : Label.isName name = true) (hm : name ≠ "macro".toList) :
    Text.dropPrefix? Pseudo.mark.toList (name ++ [':']) = none := by
  rw [Text.dropPrefix?, if_neg]
  intro hp
  obtain ⟨rest, hr⟩ := List.isPrefixOf_iff_prefix.1 hp
  -- both sides are cut at their first colon
  have cut := Text.cutFirst?_append (colon_notMem_of_isName h) []
  rw [← hr, mark_eq, List.append_assoc, List.singleton_append, Text.cutFirst?_append (by decide)] at cut
  cases cut
  exact hm rfl

theorem isWord_label {name : List Char} (h : Label.isName name = true) : IsWord (name ++ [':']) := by
  refine ⟨by simp, fun c hc => ?_⟩
  rcases List.mem_append.1 hc with hc | hc
  · exact (isWord_of_isName h).2 c hc
  · rw [List.mem_singleton.1 hc]
    decide

/-- A name before a colon is a label. -/
theorem read_label {name : List Char} (h : Label.isName name = true) (hm : name ≠ "macro".toList) :
    read (name ++ [':']) = .ok (some (.label (String.ofList name))) := by
  have word := isWord_label h
  have some_text : ((name ++ [':']).isEmpty || decide ((name ++ [':']).head? = some '#')) = false := by
    cases name with
    | nil => cases h
    | cons c cs =>
      have : c ≠ '#' := by
        rintro rfl
        exact absurd (isPart_of_isName h '#' List.mem_cons_self) (by decide)
      simp [this]
  have form : labelForm? (name ++ [':']) = some name := by
    rw [labelForm?, Text.words_word word]
    exact Text.dropEnd?_append _ _
  rw [read, Text.trim_of_isTrim word.isTrim]
  simp only [some_text, dropPrefix?_mark_label h hm, form, h, Bool.false_eq_true, if_false, if_true]

/-- The word of the mark before a colon is a mark without a pseudo-instruction. -/
theorem read_label_mark : read ("macro".toList ++ [':']) = .error (.pseudo (.malformed "")) := by rfl

/-! ### Jumps -/

/-- A jump to what is written after the operation. -/
theorem read_jump (link : Bool) {target : List Char} (h : IsWord target) {blanks : List Char}
    (hb : ∀ c ∈ blanks, Text.isBlank c = true) :
    read (blanks ++ ((Op.jump link).name.toList ++ ' ' :: target)) = (readJump link target).map some := by
  have op := isWord_op_name (.jump link)
  have shape : (Op.jump link).name.toList ++ ' ' :: target = (Op.jump link).name.toList ++ [' '] ++ target := by simp
  have ends : IsTrim ((Op.jump link).name.toList ++ ' ' :: target) := by
    rw [shape]
    exact op.isTrim.append h.isTrim op.1 h.1 _
  have ws : Text.words ((Op.jump link).name.toList ++ ' ' :: target) = [(Op.jump link).name.toList, target] := by
    rw [Text.words_space op, Text.words_word h]
  have form : labelForm? ((Op.jump link).name.toList ++ ' ' :: target) = none := by
    rw [labelForm?, ws]
  rw [read_of_words (by rw [Text.trim_indent hb, Text.trim_of_isTrim ends]) (by simp) (head?_op_name _ _)
    (dropPrefix?_mark_op _ _) form, ws, readWords, Op.ofName?_name]
  rfl

end Statement

end M32.Assembly
