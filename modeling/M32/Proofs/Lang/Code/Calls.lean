/-
  Calls in assembled programs.

  The assembler reads the name in a jump as an integer where it can, and a label with the name of the mark as a
  pseudo-instruction.  `assembled_calls` says when a program that compiles is assembled all the same, and where its calls go:
  to the first instruction of the called function, unless the name of the function is an integer literal.
-/
import M32.Proofs.Lang.Code.Assembled

namespace M32.Lang

open Assembly (Placed Assembler Statement Cell ofLine)
open Assembly.TwoPass

variable {file : String} {cs : List Char} {map : MemoryMap} {code : List Line}

/-- All lines are taken if no label has the name of the mark and no jump has an integer that is too large. -/
theorem readable_iff : (∀ l ∈ code, l.IsReadable) ↔ "macro" ∉ labelsOf code ∧
    ∀ mnemonic name, .jump mnemonic name ∈ code → ∀ n, Line.index? name = some n → n < Instr.indexLimit := by
  constructor
  · intro h
    exact ⟨fun hm => h _ (mem_labelsOf_iff.1 hm) rfl, fun mnemonic name hj n hn => h _ hj n hn⟩
  · rintro ⟨plain, small⟩ l hl
    cases l with
    | label name =>
      rintro rfl
      exact plain (mem_labelsOf_iff.2 hl)
    | jump mnemonic name => exact fun n hn => small mnemonic name hl n hn
    | instr i => trivial
    | pseudo p => trivial

/-- The label of a name that a jump has stands somewhere among the lines. -/
theorem label_of_jump (h : compileLines file cs map = .ok code) {mnemonic name : String} (hj : .jump mnemonic name ∈ code) :
    ∃ j : Nat, code[j]? = some (.label name) :=
  List.getElem?_of_mem (mem_labelsOf_iff.1 ((labelsOf_compileLines h).2 mnemonic name hj))

/-- The labels of a program that compiles are the names of its functions.  It is assembled if and only if none of them is
    the word of the mark of pseudo-instructions and no function that is called has an integer literal above all indices
    for a name.  Its jumps, calls among them, go to the first
    instruction of the function that they name, unless this name is an integer literal: then they go there. -/
theorem assembled_calls (h : compileLines file cs map = .ok code) (bound : codeSize code < Instr.indexLimit) :
    (∃ p, readProgram file cs = .ok p ∧ labelsOf code = p.functions.map (·.name)) ∧
    ((∃ placed, Assembly.assemble (renderCode code).toList = .ok placed) ↔ "macro" ∉ labelsOf code ∧
      ∀ mnemonic name, .jump mnemonic name ∈ code → ∀ n, Line.index? name = some n → n < Instr.indexLimit) ∧
    ∀ placed, Assembly.assemble (renderCode code).toList = .ok placed →
      ∀ (k : Nat) mnemonic name, code[k]? = some (.jump mnemonic name) →
        ∃ (j : Nat) (p : Placed), code[j]? = some (.label name) ∧ ofLine placed (k + 1) = [p] ∧
          p.instr = .jump (Line.links mnemonic) (UInt32.ofNat ((Line.index? name).getD (codeSize (code.take j)))) ∧
          (p.instr = .jump (Line.links mnemonic) (UInt32.ofNat (codeSize (code.take j))) ↔
            Line.index? name = none ∨ Line.index? name = some (codeSize (code.take j))) := by
  have written := written_compileLines h
  have readable {placed : List Placed} (ha : Assembly.assemble (renderCode code).toList = .ok placed) :
      ∀ l ∈ code, l.IsReadable := by
    obtain ⟨a, -, -, fine, -, -⟩ := assemble_eq_ok ha
    rw [lines_of_compileLines h] at fine
    exact readable_of_firstError? written fine
  refine ⟨?_, ?_, ?_⟩
  · obtain ⟨p, scope, hp, hs, hc⟩ := compileLines_eq_ok h
    exact ⟨p, hp, (written_programCode hs hc).2⟩
  · rw [← readable_iff]
    constructor
    · rintro ⟨placed, ha⟩
      exact readable ha
    · intro hr
      exact assemble_compiled h hr bound
  intro placed ha k mnemonic name hj
  have hr := readable ha
  obtain ⟨a, -, -, fine, -, hp⟩ := assemble_eq_ok ha
  rw [lines_of_compileLines h] at fine hp
  have mem : .jump mnemonic name ∈ code := List.mem_of_getElem? hj
  obtain ⟨j, hl⟩ := label_of_jump h mem
  have within := codeSize_take_le code j
  -- the label of the function stands before its first instruction
  have hlabel : (code.map fun l => l.render.toList)[j]? = some (Line.label name).render.toList := by
    rw [List.getElem?_map, hl]; rfl
  have label := Line.label?_render (written _ (List.mem_of_getElem? hl)) (hr _ (List.mem_of_getElem? hl))
  have defined := definition?_of_label? hlabel label (firstError?_eq_none_iff.1 fine).2.1
  rw [size_take written hr] at defined
  have index : wordIndex (indexOf (code.map fun l => l.render.toList) name) = UInt32.ofNat (codeSize (code.take j)) := by
    rw [indexOf, defined]
    exact wordIndex_eq (Nat.lt_of_le_of_lt within bound)
  -- the line of the jump has one word
  have hk : (code.map fun l => l.render.toList)[k]? = some (Line.jump mnemonic name).render.toList := by
    rw [List.getElem?_map, hj]; rfl
  have word := ofLine_programWith (fun name => wordIndex (indexOf (code.map fun l => l.render.toList) name)) hk
  rw [← hp, Line.cells_render (written _ mem) (hr _ mem), Line.statement] at word
  have injective {m n : Nat} (hm : m < Instr.indexLimit) (hn : n < Instr.indexLimit)
      (he : UInt32.ofNat m = UInt32.ofNat n) : m = n := by
    rw [← wordIndex_eq hm, ← wordIndex_eq hn] at he
    rw [← toNat_wordIndex (four_mul_lt hm), ← toNat_wordIndex (four_mul_lt hn), he]
  cases hi : Line.index? name with
  | none =>
    rw [hi] at word
    have aimed := congrArg (Instr.jump (Line.links mnemonic)) index
    exact ⟨j, _, hl, word, aimed, fun _ => .inl rfl, fun _ => aimed⟩
  | some n =>
    rw [hi] at word
    have small : n < Instr.indexLimit := hr _ mem n hi
    refine ⟨j, _, hl, word, rfl, ?_⟩
    constructor
    · intro he
      have := injective small (by omega) (Instr.jump.inj he).2
      exact .inr (by rw [this])
    · rintro (he | he)
      · cases he
      · cases he
        rfl

/-- A call to a function with an integer literal for a name goes to that index, not to the function. -/
theorem assembled_calls_integer :
    ∃ code placed p, compileLines "f" "void _1() { } void main() { _1() }".toList {} = .ok code ∧
      codeSize code < Instr.indexLimit ∧ Assembly.assemble (renderCode code).toList = .ok placed ∧
      code[17]? = some (.jump "jal" "_1") ∧ ofLine placed 18 = [p] ∧ p.instr = .jump true 1 := by
  have compiled : (compileLines "f" "void _1() { } void main() { _1() }".toList {}).toOption.any (fun code =>
      code.all (fun l => decide l.IsReadable) && decide (codeSize code < Instr.indexLimit)
        && decide (code[17]? = some (.jump "jal" "_1"))) = true := by decide +kernel
  cases hc : compileLines "f" "void _1() { } void main() { _1() }".toList {} with
  | error e => rw [hc] at compiled; cases compiled
  | ok code =>
    rw [hc] at compiled
    simp only [Except.toOption, Option.any_some, Bool.and_eq_true, List.all_eq_true, decide_eq_true_eq] at compiled
    obtain ⟨⟨readable, bound⟩, hj⟩ := compiled
    obtain ⟨-, accepted, calls⟩ := assembled_calls hc bound
    obtain ⟨placed, hp⟩ := accepted.2 (readable_iff.1 readable)
    obtain ⟨j, p, -, word, aimed, -⟩ := calls placed hp 17 "jal" "_1" hj
    exact ⟨code, placed, p, rfl, bound, hp, hj, word, aimed⟩

end M32.Lang
