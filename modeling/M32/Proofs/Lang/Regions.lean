/-
  The regions of programs that are built.

  Whether a text is built, the number of its words and the bytes of its globals are the same for all memory maps, so no map
  is compared with the program.  The regions of a program are apart just where the map happens to have room
  (`regions_of_built`).
-/
import M32.Proofs.Lang.Code.Remapped
import M32.Proofs.Lang.Scope.Globals
import M32.Proofs.MemoryMap

namespace M32.Lang

/-- Whether a text is built does not depend on the memory map, and neither do the number of its words and the total size of
    its globals.  So on a map without faults the code, the globals, the heap and the stack are apart if the map has room for
    these words and bytes, and only then if there are globals and a heap.  A map without room is not refused. -/
theorem regions_of_built {file : String} {cs : List Char} {map : MemoryMap} {asm : String} {words : List Word}
    (h : build file cs map = .ok (asm, words)) :
    ∃ p scope bytes, readProgram file cs = .ok p ∧ Scope.ofProgram map p = .ok scope ∧
      scope.types.total (globalsOf p.defs) = .ok bytes ∧
      ∀ map', ∃ asm' words', build file cs map' = .ok (asm', words') ∧ words'.length = words.length ∧
        Scope.ofProgram map' p = .ok (scope.onMap map') ∧
        (map'.fault? = none →
          (map'.HasRoom words.length bytes → (map'.regions words.length bytes).Pairwise Region.Apart) ∧
          (0 < bytes → map'.heapBase < map'.heapLimit →
            (map'.regions words.length bytes).Pairwise Region.Apart → map'.HasRoom words.length bytes)) := by
  obtain ⟨code, -, hc, -, -, -⟩ := build_eq_ok_iff.1 h
  obtain ⟨p, scope, hp, hs, -⟩ := compileLines_eq_ok hc
  refine ⟨p, scope, scope.globals.size, hp, hs, total_globals hs, fun map' => ?_⟩
  obtain ⟨asm', words', built, length⟩ := build_onMap h map'
  refine ⟨asm', words', built, length, Scope.ofProgram_onMap hs map', fun valid => ⟨?_, ?_⟩⟩
  · intro room
    exact (room.pairwise valid).imp Region.apart_of_le
  · intro some_global some_heap apart
    exact (MemoryMap.pairwise_apart_iff valid some_global some_heap).1 apart

/-- An array that reaches one word into the heap. -/
def largeText : String := "int[245761] a; void main() { }"

/-- The usual map has no room for the array, yet the text is built, and its regions overlap. -/
theorem regions_of_built_large :
    ∃ asm words, build "f" largeText.toList {} = .ok (asm, words) ∧ ({} : MemoryMap).fault? = none ∧
      ¬ (({} : MemoryMap).regions words.length 983044).Pairwise Region.Apart := by
  have compiled : (compileLines "f" largeText.toList {}).toOption.any (fun code =>
      code.all (fun l => decide l.IsReadable) && decide (codeSize code < Instr.indexLimit)) = true := by decide +kernel
  have size : (readProgram "f" largeText.toList).toOption.any (fun p => (Scope.ofProgram {} p).toOption.any fun scope =>
      (scope.types.total (globalsOf p.defs)).toOption.any fun bytes => decide (bytes = 983044)) = true := by decide +kernel
  cases hc : compileLines "f" largeText.toList {} with
  | error e => rw [hc] at compiled; cases compiled
  | ok code =>
    rw [hc] at compiled
    simp only [Except.toOption, Option.any_some, Bool.and_eq_true, List.all_eq_true, decide_eq_true_eq] at compiled
    obtain ⟨readable, bound⟩ := compiled
    obtain ⟨placed, ha⟩ := assemble_compiled hc readable bound
    have built := build_eq_ok_iff.2 ⟨code, placed, hc, ha, rfl, rfl⟩
    obtain ⟨p, scope, bytes, hp, hs, total, all⟩ := regions_of_built built
    rw [hp] at size
    simp only [Except.toOption, Option.any_some, hs, total, decide_eq_true_eq] at size
    have valid : ({} : MemoryMap).fault? = none := by decide
    obtain ⟨-, -, -, -, -, regions⟩ := all {}
    have room := (regions valid).2
    rw [size] at room
    refine ⟨_, _, built, valid, fun apart => ?_⟩
    exact absurd (room (by decide) (by decide) apart).globals (by decide)

end M32.Lang
