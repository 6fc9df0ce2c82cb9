/-
  The assembler against a plain one of two passes: the two passes.

  1. `accept` reads a line on its own.  The `cells` of a line are the instructions that it gives, with the labels of
     jumps still in them.
  2. First pass: `definition?` finds where some lines define a label.  Second pass: `program` puts the cells of all lines
     in a row and aims the jumps.
  3. `offence?` is what is wrong with a line after the lines before it, `firstError?` the error of the first wrong line,
     and `assembled` what some lines give in the end.
  4. The lemmas say what one more line adds to each of these.
-/
import M32.Assembly.Assembler

namespace M32.Assembly

/-! ## Lines before labels are known -/

/-- An instruction of a text before labels are known: a whole one, or a jump to a label. -/
inductive Cell where
  | instr (i : Instr)
  | jump (link : Bool) (label : String)
  deriving DecidableEq, Repr

/-- The label that a cell waits for. -/
def Cell.label? : Cell → Option String
  | instr _ => none
  | jump _ label => some label

/-- The instruction of a cell once labels have an index. -/
def Cell.aimed (index : String → Word) : Cell → Instr
  | instr i => i
  | jump link label => .jump link (index label)

/-- The cells of a statement. -/
def Statement.cells : Statement → List Cell
  | .label _ => []
  | .pseudo p => p.instrs.map .instr
  | .instr i => [.instr i]
  | .jump link target => [.jump link target]

namespace TwoPass

/-- Reads a line on its own: what it holds, with the operands of pseudo-instructions permitted. -/
def accept (text : List Char) : Except Fault (Option Statement) :=
  match Statement.read text with
  | .ok (some (.pseudo p)) => match p.expand with
    | .ok _ => .ok (some (.pseudo p))
    | .error e => .error (.pseudo e)
  | r => r

/-- The statement of a line, if it is accepted and holds one. -/
def statement? (text : List Char) : Option Statement :=
  match accept text with
  | .ok s? => s?
  | .error _ => none

/-- The label that a line defines. -/
def label? (text : List Char) : Option String :=
  match statement? text with
  | some (.label name) => some name
  | _ => none

/-- The cells of a line. -/
def cellsOf (text : List Char) : List Cell :=
  match statement? text with
  | some s => s.cells
  | none => []

/-- The cells of some lines. -/
def cells (ls : List (List Char)) : List Cell := ls.flatMap cellsOf

/-- The number of instructions of some lines. -/
def size (ls : List (List Char)) : Nat := (cells ls).length

/-- The labels that some lines define, in order. -/
def labels (ls : List (List Char)) : List String := ls.filterMap label?

/-- The labels that the jumps of some lines name, in order. -/
def targets (ls : List (List Char)) : List String := (cells ls).filterMap Cell.label?

/-! ## The two passes -/

/-- Where a label is defined first: the number of instructions before it and the number of its line. -/
def definition? (name : String) : List (List Char) → Option (Nat × Nat)
  | [] => none
  | text :: rest =>
    if label? text = some name then some (0, 1)
    else (definition? name rest).map fun (index, line) => ((cellsOf text).length + index, line + 1)

/-- The number of instructions before the definition of a label. -/
def indexOf (ls : List (List Char)) (name : String) : Nat := ((definition? name ls).map (·.1)).getD 0

/-- The cells of some lines with the numbers of their lines. -/
def numbered (ls : List (List Char)) : List (Nat × Cell) :=
  (ls.zipIdx 1).flatMap fun (text, line) => (cellsOf text).map fun c => (line, c)

/-- The program of some lines, for the word index that each label has. -/
def programWith (index : String → Word) (ls : List (List Char)) : List Placed :=
  (numbered ls).mapIdx fun i (line, c) => ⟨UInt32.ofNat (4 * i), line, c.aimed index⟩

/-- The program of some lines: a jump carries the number of instructions before its label. -/
def program (ls : List (List Char)) : List Placed := programWith (fun name => UInt32.ofNat (indexOf ls name)) ls

/-- The labels that jumps name and no line defines, in the order of the first jumps to them. -/
def undefined (ls : List (List Char)) : List String := (targets ls).eraseDups.filter fun name => (definition? name ls).isNone

/-- What some lines that are all right give: their program, or the labels that no line defines. -/
def finished (index : String → Word) (ls : List (List Char)) : Except Error (List Placed) :=
  match undefined ls with
  | [] => .ok (programWith index ls)
  | names => .error ⟨none, .undefinedLabels names⟩

/-- What is wrong with a line after the lines before it. -/
def offence? (before : List (List Char)) (text : List Char) : Option Fault :=
  match accept text with
  | .error fault => some fault
  | .ok (some (.label name)) => (definition? name before).map fun (_, line) => .redefinedLabel name line
  | .ok _ => none

/-- The error of the first line that is wrong. -/
def firstError? (before : List (List Char)) : List (List Char) → Option Error
  | [] => none
  | text :: rest => match offence? before text with
    | some fault => some ⟨some (before.length + 1), fault⟩
    | none => firstError? (before ++ [text]) rest

/-- What some lines give: the error of the first wrong line, or else what they give together. -/
def assembled (ls : List (List Char)) : Except Error (List Placed) :=
  match firstError? [] ls with
  | some e => .error e
  | none => finished (fun name => UInt32.ofNat (indexOf ls name)) ls

/-! ## Lines one after another -/

variable {ls ms : List (List Char)} {text : List Char} {name : String}

theorem cells_append (ls ms : List (List Char)) : cells (ls ++ ms) = cells ls ++ cells ms := List.flatMap_append

theorem cells_singleton (text : List Char) : cells [text] = cellsOf text := List.flatMap_singleton ..

theorem size_append (ls ms : List (List Char)) : size (ls ++ ms) = size ls + size ms := by
  rw [size, cells_append, List.length_append]; rfl

theorem targets_append (ls ms : List (List Char)) : targets (ls ++ ms) = targets ls ++ targets ms := by
  rw [targets, cells_append, List.filterMap_append]; rfl

theorem numbered_append (ls : List (List Char)) (text : List Char) :
    numbered (ls ++ [text]) = numbered ls ++ (cellsOf text).map fun c => (ls.length + 1, c) := by
  rw [numbered, List.zipIdx_append, List.flatMap_append, Nat.add_comm ls.length]
  simp [numbered]

theorem map_numbered (ls : List (List Char)) : (numbered ls).map (·.2) = cells ls := by
  have go : ∀ n, ((ls.zipIdx n).flatMap fun (text, line) => (cellsOf text).map fun c => (line, c)).map (·.2) = cells ls := by
    induction ls with
    | nil => intro n; rfl
    | cons text ls ih =>
      intro n
      have tail := ih (n + 1)
      simp only [List.zipIdx_cons, List.flatMap_cons, List.map_append, tail, cells]
      congr 1
      rw [List.map_map]
      exact List.map_id _
  exact go 1

theorem length_numbered (ls : List (List Char)) : (numbered ls).length = size ls := by
  rw [size, ← map_numbered, List.length_map]

theorem definition?_append (name : String) (ls ms : List (List Char)) :
    definition? name (ls ++ ms)
      = (definition? name ls).or ((definition? name ms).map fun (index, line) => (size ls + index, ls.length + line)) := by
  induction ls with
  | nil => simp [definition?, size, cells]
  | cons text ls ih =>
    rw [List.cons_append, definition?, definition?]
    by_cases here : label? text = some name
    · rw [if_pos here, if_pos here]; rfl
    · rw [if_neg here, if_neg here, ih]
      have hs : size (text :: ls) = (cellsOf text).length + size ls := by simp [size, cells]
      cases definition? name ls with
      | some d => rfl
      | none =>
        cases definition? name ms with
        | none => rfl
        | some d =>
          simp only [Option.map_none, Option.none_or, Option.map_some, hs, List.length_cons, Option.some.injEq,
            Prod.mk.injEq]
          omega

theorem definition?_isSome_iff : (definition? name ls).isSome ↔ name ∈ labels ls := by
  induction ls with
  | nil => simp [definition?, labels]
  | cons text ls ih =>
    rw [definition?, labels, List.mem_filterMap]
    by_cases here : label? text = some name
    · simp [here]
    · rw [if_neg here, Option.isSome_map, ih, labels, List.mem_filterMap]
      simp [here]

theorem definition?_eq_none_iff : definition? name ls = none ↔ name ∉ labels ls := by
  rw [← definition?_isSome_iff, Option.not_isSome_iff_eq_none]

/-- A label is defined among the instructions of its lines. -/
theorem definition?_le {d : Nat × Nat} (h : definition? name ls = some d) : d.1 ≤ size ls := by
  induction ls generalizing d with
  | nil => simp [definition?] at h
  | cons text ls ih =>
    have hs : size (text :: ls) = (cellsOf text).length + size ls := by simp [size, cells]
    rw [definition?] at h
    split at h
    · cases h; exact Nat.zero_le _
    · obtain ⟨e, he, rfl⟩ := Option.map_eq_some_iff.1 h
      have := ih he
      rw [hs]; simp only; omega

end TwoPass

end M32.Assembly
