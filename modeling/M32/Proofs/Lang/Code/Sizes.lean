/-
  Sizes of generated lines are the sizes that the assembler finds.

  `assembled_sizes`: each line of an assembled program has as many words as its size says, they stand where the sizes of
  the lines before it put them, and they are the instructions that the line was written from.
-/
import M32.Proofs.Lang.Code.Assembled

namespace M32.Lang

open Assembly (Placed Assembler Statement ofLine)
open Assembly.TwoPass

variable {file : String} {cs : List Char} {map : MemoryMap} {code : List Line}

/-- The code generator and the assembler agree on sizes.  Of a program that compiles and is assembled, a line has as many
    words as its size says.  They stand at the addresses that the sizes of the lines before it give, a label has the
    address of the next of them, and an instruction or pseudo-instruction is what its line was written from. -/
theorem assembled_sizes {placed : List Placed} (h : compileLines file cs map = .ok code)
    (ha : Assembly.assemble (renderCode code).toList = .ok placed) :
    placed.length = codeSize code ∧
    ∃ a, Assembler.feedLines {} 1 (Text.lines (renderCode code).toList) = .ok a ∧ a.finish = .ok placed ∧
      ∀ k l, code[k]? = some l →
        (ofLine placed (k + 1)).length = l.size ∧
        ofLine placed (k + 1) = (placed.drop (codeSize (code.take k))).take l.size ∧
        (∀ j p, (ofLine placed (k + 1))[j]? = some p → p.address = UInt32.ofNat (4 * (codeSize (code.take k) + j))) ∧
        (∀ name, l = .label name → a.labels.get? name = some (UInt32.ofNat (4 * codeSize (code.take k)))) ∧
        (∀ i, l = .instr i → (ofLine placed (k + 1)).map (·.instr) = [i]) ∧
        (∀ p, l = .pseudo p → (ofLine placed (k + 1)).map (·.instr) = p.instrs) := by
  have written := written_compileLines h
  obtain ⟨a, hf, agrees, fine, none_undefined, hp⟩ := assemble_eq_ok ha
  rw [lines_of_compileLines h] at hf agrees fine none_undefined hp ⊢
  have readable := readable_of_firstError? written fine
  refine ⟨length_of_assembled h ha, a, hf, ?_, fun k l hl => ?_⟩
  · rw [finish_eq agrees, finished, none_undefined, hp]
  · have mem : l ∈ code := List.mem_of_getElem? hl
    have hk : (code.map fun l => l.render.toList)[k]? = some l.render.toList := by rw [List.getElem?_map, hl]; rfl
    have cells := Line.cells_render (written l mem) (readable l mem)
    have row_k := ofLine_programWith (fun name => wordIndex (indexOf (code.map fun l => l.render.toList) name)) hk
    rw [← hp, size_take written readable, cells] at row_k
    have place := drop_programWith (fun name => wordIndex (indexOf (code.map fun l => l.render.toList) name)) hk
    rw [← hp, size_take written readable, cells, Line.length_cells] at place
    rw [row_k]
    refine ⟨?_, place.symm, ?_, ?_, ?_, ?_⟩
    · rw [length_row, Line.length_cells]
    · intro j p hj
      obtain ⟨c, -, rfl⟩ := Option.map_eq_some_iff.1 (List.getElem?_mapIdx ▸ hj)
      rfl
    · rintro name rfl
      have label := Line.label?_render (written _ mem) (readable _ mem)
      have defined := definition?_of_label? hk label (firstError?_eq_none_iff.1 fine).2.1
      rw [size_take written readable] at defined
      rw [Assembly.LabelTable.get?, agrees.find, binding?, defined]
      rfl
    · rintro i rfl
      rfl
    · rintro p rfl
      rw [map_instr_row, Line.statement, Statement.cells, List.map_map]
      exact List.map_id _

/-- A program with a call to a function further on, of twenty-two words. -/
theorem assembled_sizes_call :
    ∃ code placed, compileLines "f" "void main() { f() } void f() { }".toList {} = .ok code ∧
      Assembly.assemble (renderCode code).toList = .ok placed ∧ placed.length = codeSize code ∧ codeSize code = 22 := by
  have compiled : (compileLines "f" "void main() { f() } void f() { }".toList {}).toOption.any (fun code =>
      code.all (fun l => decide l.IsReadable) && decide (codeSize code = 22)) = true := by decide +kernel
  cases hc : compileLines "f" "void main() { f() } void f() { }".toList {} with
  | error e => rw [hc] at compiled; cases compiled
  | ok code =>
    rw [hc] at compiled
    simp only [Except.toOption, Option.any_some, Bool.and_eq_true, List.all_eq_true, decide_eq_true_eq] at compiled
    obtain ⟨readable, size⟩ := compiled
    obtain ⟨placed, hp⟩ := assemble_compiled hc readable (by rw [size]; decide)
    exact ⟨code, placed, rfl, hp, (assembled_sizes hc hp).1, size⟩

end M32.Lang
