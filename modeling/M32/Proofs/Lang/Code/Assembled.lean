/-
  Compiled programs as assembly text.

  1. The lines of a program that compiles may all be generated (`written_compileLines`), so they are the lines of its text.
  2. `size_render`: if the assembler takes them, the instructions before a line are as many as the code generator counts.
     Labels and targets of jumps are those of the lines (`labels_render`, `targets_render`).
  3. `assemble_compiled_iff`: the text is assembled if the assembler takes each line and jumps reach all labels, since a
     program defines the label of each function once and jumps to functions only.
-/
import M32.Proofs.Assembly.TwoPass.Reach
import M32.Proofs.Lang.Code.Emitted
import M32.Proofs.Lang.Tree.Forward

namespace M32.Lang

open Assembly (Placed Assembler Cell Statement)
open Assembly.TwoPass

variable {file : String} {cs : List Char} {map : MemoryMap} {code : List Line}

/-! ## Compiled programs -/

/-- What a text is that compiles. -/
theorem compileLines_eq_ok (h : compileLines file cs map = .ok code) :
    ∃ p scope, readProgram file cs = .ok p ∧ Scope.ofProgram map p = .ok scope ∧ programCode scope p = .ok code := by
  unfold compileLines at h
  cases hp : readProgram file cs with
  | error e => rw [hp] at h; cases h
  | ok p =>
    rw [hp] at h
    cases hs : Scope.ofProgram map p with
    | error e => simp only [bind, Except.bind, hs] at h; cases h
    | ok scope =>
      simp only [bind, Except.bind, hs] at h
      exact ⟨p, scope, rfl, hs, h⟩

/-- The lines of a program that compiles may be generated, with names that have the form of names. -/
theorem written_compileLines (h : compileLines file cs map = .ok code) : ∀ l ∈ code, l.IsWritten IsName IsName := by
  obtain ⟨p, scope, hp, hs, hc⟩ := compileLines_eq_ok h
  intro l hl
  have named : ∀ name ∈ p.functions.map (·.name), IsName name := by
    intro name hn
    obtain ⟨f, hf, rfl⟩ := List.mem_map.1 hn
    exact isName_of_mem_functions hp hf
  exact ((written_programCode hs hc).1 l hl).mono named named

/-- The lines of the text of a program that compiles are its generated lines. -/
theorem lines_of_compileLines (h : compileLines file cs map = .ok code) :
    Text.lines (renderCode code).toList = code.map fun l => l.render.toList := by
  obtain ⟨p, scope, hp, hs, hc⟩ := compileLines_eq_ok h
  obtain ⟨pieces, -, hcode⟩ := programCode_eq_ok hc
  refine lines_renderCode ?_ (written_compileLines h)
  rw [hcode]
  simp [startCode]

/-! ## Counting words -/

theorem size_render (hw : ∀ l ∈ code, l.IsWritten IsName IsName) (hr : ∀ l ∈ code, l.IsReadable) :
    size (code.map fun l => l.render.toList) = codeSize code := by
  induction code with
  | nil => rfl
  | cons l code ih =>
    have rest := ih (fun m hm => hw m (List.mem_cons_of_mem _ hm)) fun m hm => hr m (List.mem_cons_of_mem _ hm)
    have first := Line.cells_render (hw l List.mem_cons_self) (hr l List.mem_cons_self)
    rw [List.map_cons, ← List.singleton_append, size_append, rest, size, cells_singleton, first, Line.length_cells,
      codeSize_cons]

theorem size_take (hw : ∀ l ∈ code, l.IsWritten IsName IsName) (hr : ∀ l ∈ code, l.IsReadable) (k : Nat) :
    size ((code.map fun l => l.render.toList).take k) = codeSize (code.take k) := by
  rw [← List.map_take]
  exact size_render (fun l hl => hw l (List.mem_of_mem_take hl)) fun l hl => hr l (List.mem_of_mem_take hl)

theorem codeSize_take_le (code : List Line) (k : Nat) : codeSize (code.take k) ≤ codeSize code := by
  have whole := codeSize_append (code.take k) (code.drop k)
  rw [List.take_append_drop] at whole
  omega

/-- Lines that are all accepted are lines that the assembler takes as what they are. -/
theorem readable_of_firstError? (hw : ∀ l ∈ code, l.IsWritten IsName IsName)
    (h : firstError? [] (code.map fun l => l.render.toList) = none) : ∀ l ∈ code, l.IsReadable := by
  intro l hl
  obtain ⟨s?, hs⟩ := (firstError?_eq_none_iff.1 h).1 _ (List.mem_map_of_mem hl)
  exact Line.readable_of_accept (hw l hl) hs

/-- An assembled program has as many instructions as its sizes say. -/
theorem length_of_assembled {placed : List Placed} (h : compileLines file cs map = .ok code)
    (ha : Assembly.assemble (renderCode code).toList = .ok placed) : placed.length = codeSize code := by
  obtain ⟨a, -, -, fine, -, hp⟩ := assemble_eq_ok ha
  rw [lines_of_compileLines h] at fine hp
  have written := written_compileLines h
  rw [hp, length_programWith, size_render written (readable_of_firstError? written fine)]

/-! ## Labels and jumps -/

theorem mem_labelsOf_iff {name : String} : name ∈ labelsOf code ↔ .label name ∈ code := by
  rw [labelsOf, List.mem_filterMap]
  constructor
  · rintro ⟨l, hl, hn⟩
    cases l with
    | label other => cases hn; exact hl
    | _ => cases hn
  · exact fun h => ⟨_, h, rfl⟩

theorem labels_render (hw : ∀ l ∈ code, l.IsWritten IsName IsName) (hr : ∀ l ∈ code, l.IsReadable) :
    labels (code.map fun l => l.render.toList) = labelsOf code := by
  induction code with
  | nil => rfl
  | cons l code ih =>
    have rest := ih (fun m hm => hw m (List.mem_cons_of_mem _ hm)) fun m hm => hr m (List.mem_cons_of_mem _ hm)
    have first := Line.label?_render (hw l List.mem_cons_self) (hr l List.mem_cons_self)
    rw [labels] at rest ⊢
    rw [List.map_cons, labelsOf, List.filterMap_cons, List.filterMap_cons, first, rest, labelsOf]

/-- A label that a jump of the text names is named by a jump among the lines, and is no integer literal. -/
theorem targets_render (hw : ∀ l ∈ code, l.IsWritten IsName IsName) (hr : ∀ l ∈ code, l.IsReadable) {name : String}
    (h : name ∈ targets (code.map fun l => l.render.toList)) : ∃ mnemonic, .jump mnemonic name ∈ code ∧ Line.index? name = none := by
  induction code with
  | nil => simp [targets, cells] at h
  | cons l code ih =>
    have rest := ih (fun m hm => hw m (List.mem_cons_of_mem _ hm)) fun m hm => hr m (List.mem_cons_of_mem _ hm)
    have first := Line.cells_render (hw l List.mem_cons_self) (hr l List.mem_cons_self)
    rw [List.map_cons, ← List.singleton_append, targets_append, List.mem_append, targets, cells_singleton, first] at h
    rcases h with h | h
    · obtain ⟨c, hc, hn⟩ := List.mem_filterMap.1 h
      cases l with
      | label other => cases hc
      | instr i =>
        cases List.mem_singleton.1 hc
        cases hn
      | pseudo p =>
        obtain ⟨i, -, rfl⟩ := List.mem_map.1 hc
        cases hn
      | jump mnemonic target =>
        rw [Line.statement] at hc
        cases hi : Line.index? target with
        | some n =>
          rw [hi] at hc
          cases List.mem_singleton.1 hc
          cases hn
        | none =>
          rw [hi] at hc
          cases List.mem_singleton.1 hc
          cases hn
          exact ⟨mnemonic, List.mem_cons_self, hi⟩
    · obtain ⟨mnemonic, hm, hi⟩ := rest h
      exact ⟨mnemonic, List.mem_cons_of_mem _ hm, hi⟩

/-- The labels of a program that compiles are all different, and they are all the names that its jumps have. -/
theorem labelsOf_compileLines (h : compileLines file cs map = .ok code) :
    (labelsOf code).Nodup ∧ ∀ mnemonic target, .jump mnemonic target ∈ code → target ∈ labelsOf code := by
  obtain ⟨p, scope, hp, hs, hc⟩ := compileLines_eq_ok h
  obtain ⟨collected, -⟩ := collected_of_ofProgram hs
  obtain ⟨written, labels⟩ := written_programCode hs hc
  rw [labels]
  refine ⟨?_, fun mnemonic target hj => (written _ hj).2⟩
  have := collected.nodup
  rw [collected.names] at this
  exact this

/-! ## Acceptance -/

/-- A program that compiles is assembled if and only if the assembler takes each of its lines and jumps reach all labels. -/
theorem assemble_compiled_iff (h : compileLines file cs map = .ok code) :
    (∃ placed, Assembly.assemble (renderCode code).toList = .ok placed) ↔
      (∀ l ∈ code, l.IsReadable) ∧ ∀ k name, code[k]? = some (.label name) → Reachable (codeSize (code.take k)) := by
  have written := written_compileLines h
  obtain ⟨nodup, known⟩ := labelsOf_compileLines h
  rw [assemble_eq_ok_iff, feedLines_eq_ok_iff, lines_of_compileLines h]
  -- a line of the text has the label of the line it was written from
  have label (readable : ∀ l ∈ code, l.IsReadable) {k : Nat} {text : List Char} {name : String}
      (hk : (code.map fun l => l.render.toList)[k]? = some text) :
      label? text = some name ↔ code[k]? = some (.label name) := by
    rw [List.getElem?_map] at hk
    obtain ⟨l, hl, rfl⟩ := Option.map_eq_some_iff.1 hk
    have mem := List.mem_of_getElem? hl
    rw [Line.label?_render (written l mem) (readable l mem), hl]
    cases l with
    | label other => exact ⟨fun he => by cases he; rfl, fun he => by cases he; rfl⟩
    | _ => exact ⟨nofun, nofun⟩
  constructor
  · rintro ⟨⟨fine, reach⟩, -⟩
    have readable := readable_of_firstError? written fine
    refine ⟨readable, fun k name hk => ?_⟩
    have place : (code.map fun l => l.render.toList)[k]? = some (Line.label name).render.toList := by
      rw [List.getElem?_map, hk]; rfl
    rw [← size_take written readable]
    exact reach k _ name place ((label readable place).2 hk)
  · rintro ⟨readable, reach⟩
    refine ⟨⟨?_, fun k text name hk hl => ?_⟩, fun name hn => ?_⟩
    · rw [firstError?_eq_none_iff, labels_render written readable]
      refine ⟨fun text ht => ?_, nodup, fun _ _ => List.not_mem_nil⟩
      obtain ⟨l, hl, rfl⟩ := List.mem_map.1 ht
      exact ⟨_, Line.accept_render (written l hl) (readable l hl)⟩
    · rw [size_take written readable]
      exact reach k name ((label readable hk).1 hl)
    · rw [labels_render written readable]
      obtain ⟨mnemonic, hj, -⟩ := targets_render written readable hn
      exact known mnemonic name hj

/-- Jumps reach all labels of a program with fewer instructions than there are indices. -/
theorem assemble_compiled (h : compileLines file cs map = .ok code) (hr : ∀ l ∈ code, l.IsReadable)
    (bound : codeSize code < Instr.indexLimit) : ∃ placed, Assembly.assemble (renderCode code).toList = .ok placed := by
  refine (assemble_compiled_iff h).2 ⟨hr, fun k _ _ => ?_⟩
  have within := codeSize_take_le code k
  show (wordIndex _).toNat < Instr.indexLimit
  rw [toNat_wordIndex (four_mul_lt (Nat.lt_of_le_of_lt within bound))]
  exact Nat.lt_of_le_of_lt within bound

/-! ## Building -/

theorem build_eq_ok_iff {file : String} {cs : List Char} {map : MemoryMap} {asm : String} {words : List Word} :
    build file cs map = .ok (asm, words) ↔ ∃ code placed, compileLines file cs map = .ok code ∧
      Assembly.assemble (renderCode code).toList = .ok placed ∧ asm = renderCode code ∧
      words = placed.map Assembly.Placed.word := by
  unfold build compile assembleCode
  cases compileLines file cs map with
  | error e => exact ⟨nofun, by rintro ⟨_, _, ⟨⟩, _⟩⟩
  | ok code =>
    simp only [Except.map, bind, Except.bind]
    cases ha : Assembly.assemble (renderCode code).toList with
    | error e =>
      refine ⟨nofun, ?_⟩
      rintro ⟨_, _, ⟨⟩, he, -⟩
      rw [ha] at he
      cases he
    | ok placed =>
      constructor
      · rintro ⟨⟩
        exact ⟨code, placed, rfl, ha, rfl, rfl⟩
      · rintro ⟨_, _, ⟨⟩, he, rfl, rfl⟩
        rw [ha] at he
        cases he
        rfl

end M32.Lang
