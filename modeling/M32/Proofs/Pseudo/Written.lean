/-
  Pseudo-instructions as text: what is written is read back.

  1. `Scalar.encode?_render`: a value of a type is read back from its literal.  A `bool` is 0 or 1, since any other word
     is written as `true`.
  2. `Invocation.read?_written` is a name with operands in parentheses.
  3. The text is one line without blanks at its ends (`isOneLine_body`, `isTrim_body`).
  4. `read_body` is the text of a pseudo-instruction after its mark, for those that `IsWritten` admits.
  5. What a pseudo-instruction stands for can be written too: all its instructions fit their fields (`legal_instrs`).
-/
import M32.Proofs.Literal.Decimal
import M32.Proofs.Word
import M32.Pseudo.Reader

namespace M32

open Text (IsWord IsTrim IsOneLine)

/-! ## Literals of a type -/

namespace Scalar

/-- Whether a word is a value of a type. -/
def IsValue (ty : Scalar) (w : Word) : Prop := ty = .bool → w = 0 ∨ w = 1

theorem signed?_toString (w : Word) : signed? (toString w.toInt).toList = some w := by
  have lo := w.toInt32.le_toInt
  have hi := w.toInt32.toInt_lt
  have signed : w.toInt = w.toInt32.toInt := rfl
  have small : w.toInt.natAbs ≤ 0x7FFFFFFFFFFFFFFF := by omega
  have fits : fitsSigned 32 w.toInt = true := by
    rw [signed]
    simp [fitsSigned]; omega
  rw [signed?, Literal.read?_toString_int small, Option.bind_some, if_pos fits, Word.ofInt_toInt]

theorem unsigned?_toString (w : Word) : unsigned? (toString w.toNat).toList = some w := by
  have hi := w.toNat_lt
  have small : w.toNat ≤ Literal.maxMagnitude := by
    simp only [Literal.maxMagnitude]; omega
  have fits : fitsUnsigned 32 (w.toNat : Int) = true := by
    simp [fitsUnsigned]; omega
  rw [unsigned?, Literal.read?_toString small, Option.bind_some, if_pos fits, Word.ofInt_natCast, UInt32.ofNat_toNat]

theorem isWord_render (ty : Scalar) (w : Word) : IsWord (ty.render w).toList := by
  cases ty with
  | int => exact isWord_toString_int _
  | uint => exact isWord_toString _
  | bool =>
    rw [render]
    split <;> decide
  | char => exact isWord_toString _

/-- Digits end with no letter that marks them as unsigned, and start with no quote. -/
theorem dropUnsignedMark_toDigits (n : Nat) : dropUnsignedMark (Nat.toDigits 10 n) = Nat.toDigits 10 n := by
  have digit {c : Char} (hc : c.isDigit = false) : (Nat.toDigits 10 n).getLast? ≠ some c := by
    intro he
    have := isDigit_of_mem_toDigits (List.mem_of_mem_getLast? he)
    rw [hc] at this
    cases this
  rw [dropUnsignedMark, if_neg]
  simp [digit (show 'u'.isDigit = false by decide), digit (show 'U'.isDigit = false by decide)]

theorem unquote?_toDigits (n : Nat) : unquote? (Nat.toDigits 10 n) = none := by
  unfold unquote?
  split
  · next h =>
    have := isDigit_of_mem_toDigits (n := n) (by rw [h]; exact List.mem_cons_self)
    exact absurd this (by decide)
  · rfl

/-- A value of a type is read back from its literal. -/
theorem encode?_render {ty : Scalar} {w : Word} (h : ty.IsValue w) {cs : List Char}
    (ht : Text.trim cs = (ty.render w).toList) : ty.encode? cs = some w := by
  rw [encode?.eq_def]
  simp only [ht]
  cases ty with
  | int => exact signed?_toString w
  | uint =>
    show unsigned? (dropUnsignedMark (toString w.toNat).toList) = some w
    rw [toList_toString, dropUnsignedMark_toDigits, ← toList_toString]
    exact unsigned?_toString w
  | bool =>
    rcases h rfl with rfl | rfl
    · rfl
    · rfl
  | char =>
    have hq : unquote? (toString w.toNat).toList = none := by rw [toList_toString, unquote?_toDigits]
    simp only [render, hq]
    exact unsigned?_toString w

end Scalar

/-! ## Invocations -/

theorem mem_join_iff {c : Char} {args : List (List Char)} (h : c ∈ [',', ' '].intercalate args) :
    c = ',' ∨ c = ' ' ∨ ∃ a ∈ args, c ∈ a := by
  induction args with
  | nil => simp at h
  | cons a args ih =>
    cases args with
    | nil =>
      rw [List.intercalate_singleton] at h
      exact .inr (.inr ⟨a, List.mem_cons_self, h⟩)
    | cons b args =>
      rw [List.intercalate_cons_cons, List.mem_append, List.mem_append] at h
      rcases h with (h | h) | h
      · exact .inr (.inr ⟨a, List.mem_cons_self, h⟩)
      · simp at h
        rcases h with h | h
        · exact .inl h
        · exact .inr (.inl h)
      · rcases ih h with h | h | ⟨d, hd, h⟩
        · exact .inl h
        · exact .inr (.inl h)
        · exact .inr (.inr ⟨d, List.mem_cons_of_mem _ hd, h⟩)

namespace Invocation

/-- A text that may stand for an operand: a word without a comma. -/
def IsOperand (a : List Char) : Prop := IsWord a ∧ ',' ∉ a

/-- A name with operands as it is written. -/
def written (name : List Char) (args : List (List Char)) : List Char := name ++ '(' :: ([',', ' '].intercalate args ++ [')'])

/-- Operands between commas and spaces are the fields at the commas, without the spaces. -/
theorem fields_written {a : List Char} {args : List (List Char)} (h : ∀ b ∈ a :: args, IsOperand b) :
    (Text.fieldsAt ',' ([',', ' '].intercalate (a :: args))).map Text.trim = a :: args := by
  -- the first field of the rest starts with the space after the comma
  have spaced : ∀ (bs : List (List Char)) (b : List Char), (∀ d ∈ b :: bs, IsOperand d) → ∀ s, s = [] ∨ s = [' '] →
      (Text.fieldsAt ',' (s ++ [',', ' '].intercalate (b :: bs))).map Text.trim = b :: bs := by
    intro bs
    induction bs with
    | nil =>
      intro b hb s hs
      have ⟨word, comma⟩ := hb b List.mem_cons_self
      have blank : ∀ c ∈ s, Text.isBlank c = true := by rcases hs with rfl | rfl <;> simp; decide
      have clear : ',' ∉ s ++ b := by rcases hs with rfl | rfl <;> simp [comma]
      rw [List.intercalate_singleton, Text.fieldsAt_eq_singleton clear, List.map_singleton, Text.trim_indent blank,
        Text.trim_of_isTrim word.isTrim]
    | cons d bs ih =>
      intro b hb s hs
      have ⟨word, comma⟩ := hb b List.mem_cons_self
      have blank : ∀ c ∈ s, Text.isBlank c = true := by rcases hs with rfl | rfl <;> simp; decide
      have clear : ',' ∉ s ++ b := by rcases hs with rfl | rfl <;> simp [comma]
      have rest := ih d (fun e he => hb e (List.mem_cons_of_mem _ he)) [' '] (.inr rfl)
      have shape : s ++ [',', ' '].intercalate (b :: d :: bs) = (s ++ b) ++ ',' :: ([' '] ++ [',', ' '].intercalate (d :: bs)) := by
        rw [List.intercalate_cons_cons]; simp
      rw [shape, Text.fieldsAt_append clear, List.map_cons, rest, Text.trim_indent blank, Text.trim_of_isTrim word.isTrim]
  exact spaced args a h [] (.inl rfl)

theorem isTrim_operands {a : List Char} {args : List (List Char)} (h : ∀ b ∈ a :: args, IsOperand b) :
    IsTrim ([',', ' '].intercalate (a :: args)) ∧ [',', ' '].intercalate (a :: args) ≠ [] := by
  induction args generalizing a with
  | nil =>
    have word := (h a List.mem_cons_self).1
    rw [List.intercalate_singleton]
    exact ⟨word.isTrim, word.1⟩
  | cons b args ih =>
    have word := (h a List.mem_cons_self).1
    have ⟨rest, rest0⟩ := ih fun d hd => h d (List.mem_cons_of_mem _ hd)
    rw [List.intercalate_cons_cons]
    exact ⟨word.isTrim.append rest word.1 rest0 _, fun he => rest0 (List.append_eq_nil_iff.1 he).2⟩

theorem isTrim_written {name : List Char} {args : List (List Char)} (hn : IsWord name) : IsTrim (written name args) := by
  have close : IsTrim [')'] := (show IsWord [')'] by decide).isTrim
  have shape : written name args = name ++ ('(' :: [',', ' '].intercalate args) ++ [')'] := by simp [written]
  rw [shape]
  exact hn.isTrim.append close hn.1 (List.cons_ne_nil _ _) _

/-- A name with operands in parentheses is read back, whatever follows it that `trim` drops. -/
theorem read?_written {name : List Char} {cs : List Char} {a : List Char} {args : List (List Char)} (hn : IsWord name)
    (hp : '(' ∉ name) (h : ∀ b ∈ a :: args, IsOperand b) (ht : Text.trim cs = written name (a :: args)) :
    read? cs = some ⟨name, a :: args⟩ := by
  have inner : (Text.trim ([',', ' '].intercalate (a :: args))).isEmpty = false := by
    rw [Text.trim_of_isTrim (isTrim_operands h).1, List.isEmpty_eq_false_iff]
    exact (isTrim_operands h).2
  rw [read?, ht]
  simp only [written, Text.cutFirst?_append hp, Text.dropEnd?_append, Option.map_some, inner, Bool.false_eq_true, if_false, fields_written h,
    Text.trim_of_isTrim hn.isTrim]

end Invocation

/-! ## Pseudo-instructions -/

theorem PseudoKind.ofName?_name (k : PseudoKind) : ofName? k.name.toList = some k := by
  cases k <;> decide

namespace Pseudo

/-- Whether a pseudo-instruction reads back from its text: a loaded value is one of its type. -/
def IsWritten : Pseudo → Prop
  | gpr _ value ty => ty.IsValue value
  | _ => True

/-- The registers of a pseudo-instruction other than a load, as they are written. -/
def regs : Pseudo → List Reg
  | zero base count => [base, count]
  | mul dst a b | divu dst a b | divt dst a b => [dst, a, b]
  | gpr .. => []
  | ssave r | srestore r => [r]
  | saveUser | restoreUser => []

theorem isOperand_reg (r : Reg) : Invocation.IsOperand r.text.toList := by
  obtain ⟨r⟩ := r
  revert r
  unfold Invocation.IsOperand
  decide

theorem mapM_readReg (rs : List Reg) : (rs.map (·.text.toList)).mapM readReg = .ok rs := by
  induction rs with
  | nil => rfl
  | cons r rs ih =>
    rw [List.map_cons, List.mapM_cons, ih, readReg, Reg.read?_text]; rfl

/-- A pseudo-instruction with registers between parentheses, as a list of characters. -/
theorem toList_body {p : Pseudo} (h : p.regs ≠ []) :
    p.body.toList = Invocation.written p.kind.name.toList (p.regs.map (·.text.toList)) := by
  cases p <;> simp [regs, body, kind, Invocation.written, List.intercalate_cons_cons] at h ⊢

theorem isWord_kind_name (k : PseudoKind) : IsWord k.name.toList := by cases k <;> decide

/-- The reader of registers, once name and operands are known. -/
theorem readInvocation_of_read? {p : Pseudo} {cs : List Char} (hk : p.kind ≠ .gpr)
    (h : Invocation.read? cs = some ⟨p.kind.name.toList, p.regs.map (·.text.toList)⟩) : readInvocation cs = .ok p := by
  have named : p.kind.name.toList.isEmpty = false := List.isEmpty_eq_false_iff.2 (isWord_kind_name _).1
  have arity : p.regs.length = p.kind.arity := by cases p <;> first | rfl | exact absurd rfl hk
  have whole : ofRegs? p.kind p.regs = some p := by cases p <;> first | rfl | exact absurd rfl hk
  simp only [readInvocation, h, named, PseudoKind.ofName?_name, hk, List.length_map, arity, mapM_readReg, whole,
    Bool.false_eq_true, if_false, ne_eq, not_true_eq_false, bind, Except.bind]

theorem noEquals_written {p : Pseudo} (h : p.regs ≠ []) : '=' ∉ p.body.toList := by
  have name (k : PseudoKind) : '=' ∉ k.name.toList := by cases k <;> decide
  have reg (r : Reg) : '=' ∉ r.text.toList := by
    obtain ⟨r⟩ := r
    revert r
    decide
  rw [toList_body h, Invocation.written]
  simp only [List.mem_append, List.mem_cons, List.not_mem_nil, or_false, not_or]
  refine ⟨name _, by decide, ?_, by decide⟩
  intro hc
  rcases mem_join_iff hc with hc | hc | ⟨a, ha, hc⟩
  · exact absurd hc (by decide)
  · exact absurd hc (by decide)
  · obtain ⟨r, -, rfl⟩ := List.mem_map.1 ha
    exact reg r hc

/-- Pseudo-instructions of registers read back from their text, blanks around it allowed. -/
theorem read_regs {p : Pseudo} {cs : List Char} (h : p.regs ≠ []) (hk : p.kind ≠ .gpr) (hc : cs = ' ' :: p.body.toList) :
    read cs = .ok p := by
  have clear : '=' ∉ cs := by
    rw [hc, List.mem_cons, not_or]
    exact ⟨by decide, noEquals_written h⟩
  have plain (k : PseudoKind) : '(' ∉ k.name.toList := by cases k <;> decide
  have trimmed : Text.trim cs = Invocation.written p.kind.name.toList (p.regs.map (·.text.toList)) := by
    rw [hc, toList_body h]
    rw [Text.trim_space, Text.trim_of_isTrim (Invocation.isTrim_written (isWord_kind_name _))]
  obtain ⟨r, rs, hr⟩ := List.exists_cons_of_ne_nil h
  have operands : ∀ b ∈ r.text.toList :: rs.map (·.text.toList), Invocation.IsOperand b := by
    intro b hb
    rw [← List.map_cons (f := fun r : Reg => r.text.toList)] at hb
    obtain ⟨s, -, rfl⟩ := List.mem_map.1 hb
    exact isOperand_reg s
  rw [read, Text.cutFirst?_eq_none clear]
  apply readInvocation_of_read? hk
  rw [hr, List.map_cons] at trimmed ⊢
  exact Invocation.read?_written (isWord_kind_name _) (plain _) operands trimmed

/-! ### Loads -/

/-- The two sides of the equals sign of a load. -/
theorem toList_gpr (reg : Reg) (value : Word) (ty : Scalar) :
    (gpr reg value ty).body.toList = (Invocation.written "gpr".toList [reg.text.toList] ++ [' '])
      ++ '=' :: ([' '] ++ ("enc".toList ++ '(' :: ((ty.render value).toList ++ ',' :: ' ' :: ty.name.toList ++ [')']))) := by
  simp [body, kind, PseudoKind.name, Invocation.written]

theorem readEnc?_written (inner : List Char) :
    readEnc? ([' '] ++ ("enc".toList ++ '(' :: (inner ++ [')']))) = some inner := by
  have ends : IsTrim ("enc".toList ++ '(' :: (inner ++ [')'])) := by
    have close : IsTrim [')'] := (show IsWord [')'] by decide).isTrim
    have word : IsWord "enc".toList := by decide
    have shape : "enc".toList ++ '(' :: (inner ++ [')']) = "enc".toList ++ ('(' :: inner) ++ [')'] := by simp
    rw [shape]
    exact word.isTrim.append close word.1 (List.cons_ne_nil _ _) _
  rw [readEnc?, List.singleton_append, Text.trim_space, Text.trim_of_isTrim ends, Text.dropPrefix?_append, Option.bind_some]
  show Text.dropEnd? ')' (inner ++ [')']) = some inner
  exact Text.dropEnd?_append _ _

theorem readLiteral_render {ty : Scalar} {value : Word} (h : ty.IsValue value) :
    readLiteral (ty.render value).toList (' ' :: ty.name.toList) = .ok (value, ty) := by
  have name : Text.trim (' ' :: ty.name.toList) = ty.name.toList := by
    have word : IsWord ty.name.toList := by cases ty <;> decide
    rw [Text.trim_space, Text.trim_of_isTrim word.isTrim]
  have known : Scalar.ofName? ty.name.toList = some ty := by cases ty <;> decide
  have encoded := Scalar.encode?_render h (Text.trim_of_isTrim (Scalar.isWord_render ty value).isTrim)
  simp only [readLiteral, name, known, encoded]

theorem read_gpr {reg : Reg} {value : Word} {ty : Scalar} (h : ty.IsValue value) {cs : List Char}
    (hc : cs = ' ' :: (gpr reg value ty).body.toList) : read cs = .ok (gpr reg value ty) := by
  have word : IsWord "gpr".toList := by decide
  have operand : ∀ b ∈ [reg.text.toList], Invocation.IsOperand b := fun b hb => by
    rw [List.mem_singleton.1 hb]
    exact isOperand_reg reg
  have noEquals : '=' ∉ ' ' :: (Invocation.written "gpr".toList [reg.text.toList] ++ [' ']) := by
    have clear := noEquals_written (p := .ssave reg) (by simp [regs])
    rw [toList_body (by simp [regs])] at clear
    simp [regs, Invocation.written] at clear ⊢
    exact clear.2
  have comma : ',' ∉ ' ' :: ty.name.toList := by cases ty <;> decide
  have trimmed : Text.trim (' ' :: (Invocation.written "gpr".toList [reg.text.toList] ++ [' ']))
      = Invocation.written "gpr".toList [reg.text.toList] := by
    rw [Text.trim_space, Text.trim_concat (Invocation.isTrim_written word) (by simp [Invocation.written])]
    decide
  have invoked := Invocation.read?_written word (by decide) operand trimmed
  have kind : PseudoKind.ofName? "gpr".toList = some .gpr := PseudoKind.ofName?_name .gpr
  rw [hc, toList_gpr, ← List.cons_append, read, Text.cutFirst?_append noEquals]
  simp only [readLoad, invoked, kind, ne_eq, not_true_eq_false, if_false, readReg, Reg.read?_text]
  rw [readEnc?_written]
  simp only [List.append_assoc, List.cons_append]
  rw [Text.cutLast?_append comma]
  simp only [readLiteral_render h, bind, Except.bind]

/-! ### Bodies as text -/

/-- The text of a load, from its first character to its last. -/
theorem toList_gpr_body (r : Reg) (value : Word) (ty : Scalar) :
    (gpr r value ty).body.toList = "gpr(".toList ++ (r.text.toList ++ (") = enc(".toList
      ++ ((ty.render value).toList ++ (", ".toList ++ ty.name.toList)))) ++ ")".toList := by
  simp [body, kind, PseudoKind.name]

theorem isWord_ty_name (ty : Scalar) : IsWord ty.name.toList := by cases ty <;> decide

theorem isTrim_body (p : Pseudo) : IsTrim p.body.toList ∧ p.body.toList ≠ [] := by
  by_cases h : p.regs = []
  · cases p with
    | gpr r value ty =>
      have start : IsWord "gpr(".toList := by decide
      have close : IsWord ")".toList := by decide
      rw [toList_gpr_body]
      exact ⟨start.isTrim.append close.isTrim start.1 close.1 _, by simp⟩
    | saveUser => exact ⟨(isWord_kind_name .saveUser).isTrim, (isWord_kind_name .saveUser).1⟩
    | restoreUser => exact ⟨(isWord_kind_name .restoreUser).isTrim, (isWord_kind_name .restoreUser).1⟩
    | _ => cases h
  · rw [toList_body h]
    exact ⟨Invocation.isTrim_written (isWord_kind_name _), by simp [Invocation.written]⟩

theorem isOneLine_body (p : Pseudo) : IsOneLine p.body.toList := by
  have reg (r : Reg) : IsOneLine r.text.toList := (isOperand_reg r).1.isOneLine
  by_cases h : p.regs = []
  · cases p with
    | gpr r value ty =>
      have start : IsOneLine "gpr(".toList := by decide
      have middle : IsOneLine ") = enc(".toList := by decide
      have comma : IsOneLine ", ".toList := by decide
      have close : IsOneLine ")".toList := by decide
      have value := (Scalar.isWord_render ty value).isOneLine
      have name := (isWord_ty_name ty).isOneLine
      rw [toList_gpr_body]
      exact (start.append ((reg r).append (middle.append (value.append (comma.append name))))).append close
    | saveUser => exact (isWord_kind_name .saveUser).isOneLine
    | restoreUser => exact (isWord_kind_name .restoreUser).isOneLine
    | _ => cases h
  · rw [toList_body h, Invocation.written]
    refine (isWord_kind_name _).isOneLine.append (.cons (by decide) (IsOneLine.append ?_ (b := [')']) (by decide)))
    intro c hc
    rcases mem_join_iff hc with rfl | rfl | ⟨a, ha, hc⟩
    · decide
    · decide
    · obtain ⟨r, -, rfl⟩ := List.mem_map.1 ha
      exact reg r c hc

/-- A pseudo-instruction is read back from its text after the mark. -/
theorem read_body {p : Pseudo} (h : p.IsWritten) : read (' ' :: p.body.toList) = .ok p := by
  cases p with
  | gpr reg value ty => exact read_gpr h rfl
  | saveUser => rfl
  | restoreUser => rfl
  | _ => exact read_regs (by simp [regs]) (by simp [kind]) rfl

/-! ### Sequences -/

theorem legal_divuInstrs (dst a b : Reg) : ∀ i ∈ divuInstrs dst a b, i.IsLegal := by
  simp [divuInstrs, Instr.IsLegal]

/-- The operands of all instructions that it stands for fit their fields. -/
theorem legal_instrs (p : Pseudo) : ∀ i ∈ p.instrs, i.IsLegal := by
  cases p with
  | divu dst a b => exact legal_divuInstrs dst a b
  | divt dst a b =>
    refine List.forall_mem_append.2 ⟨List.forall_mem_append.2 ⟨?_, legal_divuInstrs dst a b⟩, ?_⟩
    · simp [Instr.IsLegal]
    · simp [Instr.IsLegal]
  | saveUser => decide
  | restoreUser => decide
  | _ => simp [instrs, Instr.IsLegal]

end Pseudo

end M32
