/-
  The image of a compiled program.

  1. `image_of_assembled`: if no function has an integer literal for a name, the instructions of an assembled program are
     those of its lines, with the label of each function at the index that the sizes before it give.
  2. `has_split`: a piece of the lines stands in the image where the sizes before it put it.  So the code of each function
     stands at its label (`function_of_programCode`).
-/
import M32.Proofs.Lang.Code.Assembled
import M32.Proofs.Lang.Code.Leads

namespace M32.Lang

open Assembly (Placed Assembler Cell Statement)
open Assembly.TwoPass
open Machine (Lies)

variable {file : String} {cs : List Char} {map : MemoryMap} {code : List Line}

/-! ## Instructions -/

/-- The number of instructions before the label of a name. -/
def labelIndex (code : List Line) (name : String) : Nat := indexOf (code.map fun l => l.render.toList) name

theorem cells_renderCode (hw : ∀ l ∈ code, l.IsWritten IsName IsName) (hr : ∀ l ∈ code, l.IsReadable) :
    cells (code.map fun l => l.render.toList) = code.flatMap fun l => l.statement.cells := by
  induction code with
  | nil => rfl
  | cons l code ih =>
    have first := Line.cells_render (hw l List.mem_cons_self) (hr l List.mem_cons_self)
    have rest := ih (fun m hm => hw m (List.mem_cons_of_mem _ hm)) fun m hm => hr m (List.mem_cons_of_mem _ hm)
    rw [cells] at rest ⊢
    rw [List.map_cons, List.flatMap_cons, first, rest, List.flatMap_cons]

theorem map_instr_programWith (index : String → Word) (ls : List (List Char)) :
    (programWith index ls).map (·.instr) = (cells ls).map (Cell.aimed index) := by
  rw [← map_numbered, programWith]
  apply List.ext_getElem?
  intro j
  rw [List.getElem?_map, List.getElem?_mapIdx, Option.map_map, List.getElem?_map, List.getElem?_map, Option.map_map]
  rfl

section

variable {placed : List Placed} (h : compileLines file cs map = .ok code)
  (ha : Assembly.assemble (renderCode code).toList = .ok placed) (names : ∀ name ∈ labelsOf code, Line.index? name = none)
  (small : 4 * codeSize code < 0x100000000)

include h ha small

/-- A label of a program that is assembled stands where the sizes of the lines before it put it, and a jump can name the place. -/
theorem labelIndex_of_assembled {j : Nat} {name : String} (hj : code[j]? = some (.label name)) :
    labelIndex code name = codeSize (code.take j) ∧ labelIndex code name < Instr.indexLimit := by
  have written := written_compileLines h
  obtain ⟨a, hf, -, fine, -, -⟩ := assemble_eq_ok ha
  rw [lines_of_compileLines h] at hf fine
  have readable := readable_of_firstError? written fine
  have mem := List.mem_of_getElem? hj
  have hk : (code.map fun l => l.render.toList)[j]? = some (Line.label name).render.toList := by
    rw [List.getElem?_map, hj]; rfl
  have label := Line.label?_render (written _ mem) (readable _ mem)
  have defined := definition?_of_label? hk label (firstError?_eq_none_iff.1 fine).2.1
  have reachable := reachable_of_feedLines agrees_empty hf hk label
  rw [List.nil_append, size_take written readable] at reachable
  rw [size_take written readable] at defined
  have index : labelIndex code name = codeSize (code.take j) := by
    rw [labelIndex, indexOf, defined]; rfl
  have within := codeSize_take_le code j
  rw [toNat_wordIndex (by omega)] at reachable
  exact ⟨index, index ▸ reachable⟩

/-- Jumps of a program that is assembled name labels that jumps can reach. -/
theorem labelIndex_lt_of_jump {mnemonic target : String} (hj : .jump mnemonic target ∈ code) :
    labelIndex code target < Instr.indexLimit := by
  obtain ⟨-, known⟩ := labelsOf_compileLines h
  obtain ⟨j, hl⟩ := List.getElem?_of_mem (mem_labelsOf_iff.1 (known _ _ hj))
  exact (labelIndex_of_assembled h ha small hl).2

include names

/-- The instructions of a line are those that its statement comes to. -/
theorem aimed_cells_of_mem {l : Line} (hl : l ∈ code) :
    l.statement.cells.map (Cell.aimed fun name => wordIndex (indexOf (code.map fun l => l.render.toList) name)) =
      l.instrs (labelIndex code) := by
  cases l with
  | label name => rfl
  | instr i => rfl
  | pseudo p =>
    rw [Line.statement, Statement.cells, List.map_map]
    exact List.map_id _
  | jump mnemonic target =>
    have plain : Line.index? target = none := names target ((labelsOf_compileLines h).2 _ _ hl)
    have index : wordIndex (indexOf (code.map fun l => l.render.toList) target) = UInt32.ofNat (labelIndex code target) :=
      wordIndex_eq (labelIndex_lt_of_jump h ha small hl)
    simp only [Line.statement, plain, Statement.cells, List.map_cons, List.map_nil, Cell.aimed, index]
    rfl

/-- The image of a program that compiles and is assembled. -/
theorem image_of_assembled : placed.map (·.instr) = instrsOf (labelIndex code) code ∧
    (∀ i ∈ instrsOf (labelIndex code) code, i.IsLegal) ∧
      ∀ (j : Nat) name, code[j]? = some (.label name) → labelIndex code name = codeSize (code.take j) := by
  have written := written_compileLines h
  obtain ⟨a, -, -, fine, -, hp⟩ := assemble_eq_ok ha
  rw [lines_of_compileLines h] at fine hp
  have readable := readable_of_firstError? written fine
  refine ⟨?_, fun i hi => ?_, fun j name hj => (labelIndex_of_assembled h ha small hj).1⟩
  · rw [hp, map_instr_programWith, cells_renderCode written readable, instrsOf, List.map_flatMap]
    exact List.flatMap_congr fun l hl => aimed_cells_of_mem h ha names small hl
  · obtain ⟨l, hl, hi⟩ := List.mem_flatMap.1 hi
    cases l with
    | label name => cases hi
    | instr i' =>
      cases List.mem_singleton.1 hi
      exact written _ hl
    | pseudo p => exact p.legal_instrs i hi
    | jump mnemonic target =>
      cases List.mem_singleton.1 hi
      have reached := labelIndex_lt_of_jump h ha small hl
      show (UInt32.ofNat (labelIndex code target)).toNat < Instr.indexLimit
      rw [UInt32.toNat_ofNat']
      exact Nat.lt_of_le_of_lt (Nat.mod_le _ _) reached

end

/-! ## Places of pieces -/

/-- A piece of the lines of an image stands where the sizes before it put it. -/
theorem has_split {m : Linked} {a b c : List Line} (h : m.image = instrsOf m.index (a ++ (b ++ c))) : m.Has (codeSize a) b := by
  intro j i hj
  have inside := (List.getElem?_eq_some_iff.1 hj).1
  rw [h, instrsOf_append, instrsOf_append, ← length_instrsOf m.index, List.getElem?_append_right (Nat.le_add_right _ _),
    Nat.add_sub_cancel_left, List.getElem?_append_left inside, hj]

/-- The code of the body of every function stands at its label. -/
theorem function_of_programCode {m : Linked} {scope : Scope} {p : Program} (hc : programCode scope p = .ok code)
    (image : m.image = instrsOf m.index code)
    (labels : ∀ (j : Nat) name, code[j]? = some (.label name) → m.index name = codeSize (code.take j)) {name : String}
    {self : Signature} {f : Function} (hself : scope.function? name = some self)
    (hf : p.functions.find? (·.name = name) = some f) :
    ∃ r, bodyCode { scope, self } f.body {} = .ok r ∧ m.Has (m.index self.name) r.code := by
  obtain ⟨pieces, hp, rfl⟩ := programCode_eq_ok hc
  obtain ⟨i, hi, he⟩ := List.getElem_of_mem (List.mem_of_find?_eq_some hf)
  have named : f.name = name := by simpa using List.find?_some hf
  have inside : i < pieces.length := hp.length_eq ▸ hi
  have code_f : IsCodeOf scope f pieces[i] := he ▸ hp.get hi inside
  obtain ⟨self', hs, hcode⟩ := code_f
  obtain rfl : self' = self := by
    rw [Scope.function, named, hself] at hs
    exact (Except.ok.inj hs).symm
  obtain ⟨r, hr, hpiece⟩ := functionCode_eq_ok hcode
  obtain ⟨before, after, split⟩ := List.append_of_mem (List.getElem_mem inside)
  rw [hpiece] at split
  have whole : startCode scope.map ++ pieces.flatten =
      (startCode scope.map ++ before.flatten ++ [.label self'.name]) ++ (r.code ++ after.flatten) := by
    rw [split, List.flatten_append, List.flatten_cons]
    simp only [List.append_assoc, List.cons_append, List.nil_append]
  rw [whole] at image labels
  have label := labels (startCode scope.map ++ before.flatten).length self'.name (by simp)
  have place : m.index self'.name = codeSize (startCode scope.map ++ before.flatten ++ [.label self'.name]) := by
    rw [label, List.append_assoc, List.take_left, codeSize_append _ [_]]
    rfl
  exact ⟨r, hr, place ▸ has_split image⟩

end M32.Lang
