/-
  Generated lines as lines of assembly text.

  1. `Line.IsWritten` says what code generation keeps to: instructions fit their fields, pseudo-instructions are permitted,
     jumps have one of two operations, and labels and jumps have given names.
  2. Such a line is read as its `statement`, if it `IsReadable` (`read_render`).  A label with the name of the mark is not,
     and neither is a jump to a name that is an integer literal too large for an index (`readable_of_accept`).
  3. `cells_render`: what the assembler makes of a line has the size of the line.
-/
import M32.Lang.Code.Line
import M32.Proofs.Assembly.Statement.Labels
import M32.Proofs.Assembly.TwoPass
import M32.Proofs.Lang.Token.Names

namespace M32.Lang

open Assembly (Statement Cell)

namespace Line

/-! ## Lines that code generation writes -/

/-- Whether a line may be generated, with labels for which `labels` holds and jumps to names for which `targets` holds. -/
def IsWritten (labels targets : String → Prop) : Line → Prop
  | label name => labels name
  | instr i => i.IsLegal
  | pseudo p => p.IsWritten ∧ p.fault? = none
  | jump mnemonic target => (mnemonic = "j" ∨ mnemonic = "jal") ∧ targets target

theorem IsWritten.mono {labels labels' targets targets' : String → Prop} (h : ∀ name, labels name → labels' name)
    (h' : ∀ name, targets name → targets' name) {l : Line} (hl : l.IsWritten labels targets) : l.IsWritten labels' targets' := by
  cases l with
  | label name => exact h name hl
  | instr i => exact hl
  | pseudo p => exact hl
  | jump mnemonic target => exact ⟨hl.1, h' target hl.2⟩

/-- Whether a line that is no label may be generated, with jumps to names for which `targets` holds. -/
abbrev IsInner (targets : String → Prop) (l : Line) : Prop := l.IsWritten (fun _ => False) targets

/-- The name of a label. -/
def label? : Line → Option String
  | label name => some name
  | _ => none

/-- Whether a jump keeps the return address. -/
def links (mnemonic : String) : Bool := mnemonic = "jal"

/-- The integer that the assembler takes the name of a label for, if it does. -/
def index? (name : String) : Option Nat := (Literal.read? name.toList).map Int.toNat

theorem index?_eq_none_iff {name : String} : index? name = none ↔ Literal.read? name.toList = none := Option.map_eq_none_iff

/-- What a line is to the assembler. -/
def statement : Line → Statement
  | label name => .label name
  | instr i => .instr i
  | pseudo p => .pseudo p
  | jump mnemonic target => match index? target with
    | some n => .instr (.jump (links mnemonic) (UInt32.ofNat n))
    | none => .jump (links mnemonic) target

/-- Whether the assembler takes a line. -/
def IsReadable : Line → Prop
  | label name => name ≠ "macro"
  | jump _ target => ∀ n ∈ index? target, n < Instr.indexLimit
  | _ => True

instance : DecidablePred IsReadable
  | label name => inferInstanceAs (Decidable (name ≠ "macro"))
  | jump _ target => inferInstanceAs (Decidable (∀ n ∈ index? target, n < Instr.indexLimit))
  | instr _ | pseudo _ => .isTrue trivial

/-! ## Reading -/

theorem toList_render (l : Line) : ∃ blanks : List Char, (∀ c ∈ blanks, Text.isBlank c = true) ∧
    l.render.toList = blanks ++ l.text.toList := by
  rw [render]
  split
  · exact ⟨[], by simp, rfl⟩
  · refine ⟨List.replicate 4 ' ', ?_, by rw [String.toList_append]; rfl⟩
    intro c hc
    rw [List.eq_of_mem_replicate hc]; rfl

theorem op_of_mnemonic {mnemonic : String} (h : mnemonic = "j" ∨ mnemonic = "jal") :
    mnemonic = (Op.jump (links mnemonic)).name := by
  rcases h with rfl | rfl <;> rfl

/-- What a jump to a name is read as. -/
theorem readJump_name {name : String} (h : IsName name) (link : Bool) :
    Statement.readJump link name.toList = match index? name with
      | some n => if n < Instr.indexLimit then .ok (.instr (.jump link (UInt32.ofNat n))) else .error (.outOfRange name .index)
      | none => .ok (.jump link name) := by
  rw [Statement.readJump_of_isName h.isName, String.ofList_toList]
  rfl

theorem read_jump_line {mnemonic target : String} (hm : mnemonic = "j" ∨ mnemonic = "jal") (ht : IsName target) :
    Statement.read (jump mnemonic target).render.toList
      = (Statement.readJump (links mnemonic) target.toList).map some := by
  obtain ⟨blanks, hb, hr⟩ := toList_render (jump mnemonic target)
  have shape : (jump mnemonic target).text.toList = (Op.jump (links mnemonic)).name.toList ++ ' ' :: target.toList := by
    rw [text, ← op_of_mnemonic hm, String.toList_append, String.toList_append, List.append_assoc]; rfl
  rw [hr, shape]
  exact Statement.read_jump _ ht.isWord hb

/-- A line that may be generated is read as its statement, if the assembler takes it. -/
theorem read_render {l : Line} (h : l.IsWritten IsName IsName) (hr : l.IsReadable) :
    Statement.read l.render.toList = .ok (some l.statement) := by
  obtain ⟨blanks, hb, hl⟩ := toList_render l
  cases l with
  | label name =>
    have plain : name.toList ≠ "macro".toList := fun he => hr (String.toList_inj.1 he)
    have whole : (label name).render.toList = name.toList ++ [':'] := by
      show (name ++ ":").toList = _
      rw [String.toList_append]; rfl
    rw [whole, Statement.read_label h.isName plain, String.ofList_toList]
    rfl
  | instr i =>
    rw [hl]
    exact Statement.read_instr h hb
  | pseudo p =>
    rw [hl]
    exact Statement.read_pseudo h.1 hb
  | jump mnemonic target =>
    rw [read_jump_line h.1 h.2, readJump_name h.2, statement]
    cases hi : index? target with
    | none => rfl
    | some n => simp only [hr n hi, if_true]; rfl

theorem accept_render {l : Line} (h : l.IsWritten IsName IsName) (hr : l.IsReadable) :
    Assembly.TwoPass.accept l.render.toList = .ok (some l.statement) := by
  have hread := read_render h hr
  unfold Assembly.TwoPass.accept
  rw [hread]
  cases l with
  | pseudo p =>
    have ok : p.expand = .ok p.instrs := by rw [Pseudo.expand, h.2]
    simp only [statement, ok]
  | label name => rfl
  | instr i => rfl
  | jump mnemonic target =>
    simp only [statement]
    cases index? target <;> rfl

/-- A generated line that the assembler accepts is one that it takes as what it is. -/
theorem readable_of_accept {l : Line} (h : l.IsWritten IsName IsName) {s? : Option Statement}
    (ha : Assembly.TwoPass.accept l.render.toList = .ok s?) : l.IsReadable := by
  cases l with
  | label name =>
    rintro rfl
    have whole : (label "macro").render.toList = "macro".toList ++ [':'] := by decide
    rw [Assembly.TwoPass.accept, whole, Statement.read_label_mark] at ha
    cases ha
  | jump mnemonic target =>
    intro n hn
    refine Nat.lt_of_not_ge fun large => ?_
    have refused : Statement.read (jump mnemonic target).render.toList = .error (.outOfRange target .index) := by
      rw [read_jump_line h.1 h.2, readJump_name h.2, hn]
      simp only [Nat.not_lt.2 large, if_false]
      rfl
    rw [Assembly.TwoPass.accept, refused] at ha
    cases ha
  | instr i => trivial
  | pseudo p => trivial

/-! ## Sizes -/

theorem length_cells (l : Line) : l.statement.cells.length = l.size := by
  cases l with
  | label name => rfl
  | instr i => rfl
  | pseudo p => rw [statement, Statement.cells, List.length_map, Pseudo.length_instrs]; rfl
  | jump mnemonic target =>
    rw [statement]
    cases index? target <;> rfl

theorem cells_render {l : Line} (h : l.IsWritten IsName IsName) (hr : l.IsReadable) :
    Assembly.TwoPass.cellsOf l.render.toList = l.statement.cells := by
  rw [Assembly.TwoPass.cellsOf, Assembly.TwoPass.statement?, accept_render h hr]

theorem label?_render {l : Line} (h : l.IsWritten IsName IsName) (hr : l.IsReadable) :
    Assembly.TwoPass.label? l.render.toList = l.label? := by
  rw [Assembly.TwoPass.label?, Assembly.TwoPass.statement?, accept_render h hr]
  cases l with
  | jump mnemonic target =>
    simp only [statement]
    cases index? target <;> rfl
  | _ => rfl

/-! ## Lines as lines of a text -/

theorem isOneLine_render {l : Line} (h : l.IsWritten IsName IsName) : Text.IsOneLine l.render.toList := by
  have whole : Text.IsOneLine l.text.toList := by
    cases l with
    | label name =>
      rw [text, String.toList_append]
      exact h.isWord.isOneLine.append (b := [':']) (by decide)
    | instr i => exact Assembly.isOneLine_text i
    | pseudo p => exact Statement.isOneLine_pseudo_text p
    | jump mnemonic target =>
      have op : Text.IsOneLine mnemonic.toList := by
        rw [op_of_mnemonic h.1]
        exact (Assembly.isWord_op_name _).isOneLine
      rw [text, String.toList_append, String.toList_append]
      exact (op.append (b := [' ']) (by decide)).append h.2.isWord.isOneLine
  rw [render]
  split
  · exact whole
  · rw [String.toList_append]
    exact Text.IsOneLine.append (a := [' ', ' ', ' ', ' ']) (by decide) whole

end Line

/-- The lines of generated text are the lines that were generated. -/
theorem lines_renderCode {code : List Line} (h0 : code ≠ []) (h : ∀ l ∈ code, l.IsWritten IsName IsName) :
    Text.lines (renderCode code).toList = code.map fun l => l.render.toList := by
  have some_lines : code.map Line.render ≠ [] := by simpa using h0
  rw [renderCode, Text.toList_join_newline some_lines, Text.lines_terminated, List.map_map]
  · rfl
  · intro t ht
    rw [List.map_map] at ht
    obtain ⟨l, hl, rfl⟩ := List.mem_map.1 ht
    exact Line.isOneLine_render (h l hl)

end M32.Lang
