/-
  The words of a line in an assembled program.

  `ofLine` are the instructions of a program that come from one line, and `row` those that the two passes give for it: one
  for each cell, four bytes apart, from the address that the cells before the line leave.  `ofLine_programWith` says that
  these are the same, and `assemble_eq_ok` what is known of a text that is assembled, however long it is.
-/
import M32.Proofs.Assembly.TwoPass.Result

namespace M32.Assembly

/-- The instructions of a program that come from a line. -/
def ofLine (placed : List Placed) (line : Nat) : List Placed := placed.filter fun p => p.line = line

namespace TwoPass

variable {ls : List (List Char)} {text : List Char} {index : String → Word}

/-- The instructions of a line with some cells, after `start` other instructions. -/
def row (index : String → Word) (line start : Nat) (cs : List Cell) : List Placed :=
  cs.mapIdx fun j c => ⟨UInt32.ofNat (4 * (start + j)), line, c.aimed index⟩

theorem length_row (index : String → Word) (line start : Nat) (cs : List Cell) : (row index line start cs).length = cs.length :=
  List.length_mapIdx

theorem map_instr_row (index : String → Word) (line start : Nat) (cs : List Cell) :
    (row index line start cs).map (·.instr) = cs.map (Cell.aimed index) := by
  apply List.ext_getElem?
  intro j
  rw [row, List.getElem?_map, List.getElem?_mapIdx, Option.map_map, List.getElem?_map]
  rfl

theorem length_programWith (index : String → Word) (ls : List (List Char)) : (programWith index ls).length = size ls := by
  rw [programWith, List.length_mapIdx, length_numbered]

/-- A line adds its row at the end. -/
theorem programWith_append (index : String → Word) (ls : List (List Char)) (text : List Char) :
    programWith index (ls ++ [text]) = programWith index ls ++ row index (ls.length + 1) (size ls) (cellsOf text) := by
  rw [programWith, numbered_append, List.mapIdx_append, length_numbered, programWith, row]
  congr 1
  apply List.ext_getElem?
  intro j
  simp only [List.getElem?_mapIdx, List.getElem?_map, Option.map_map, Nat.add_comm (size ls)]
  rfl

theorem line_of_mem_row {line start : Nat} {cs : List Cell} {p : Placed} (h : p ∈ row index line start cs) : p.line = line := by
  obtain ⟨j, hj, rfl⟩ := List.mem_mapIdx.1 h
  rfl

theorem line_le_of_mem {p : Placed} (h : p ∈ programWith index ls) : p.line ≤ ls.length := by
  induction ls using List.reverseRecOn with
  | nil => simp [programWith, numbered] at h
  | append_singleton ls text ih =>
    rw [programWith_append] at h
    rw [List.length_append, List.length_singleton]
    rcases List.mem_append.1 h with h | h
    · have := ih h
      omega
    · exact Nat.le_of_eq (line_of_mem_row h)

/-- The instructions of a line are its row. -/
theorem ofLine_programWith (index : String → Word) {k : Nat} (h : ls[k]? = some text) :
    ofLine (programWith index ls) (k + 1) = row index (k + 1) (size (ls.take k)) (cellsOf text) := by
  induction ls using List.reverseRecOn with
  | nil => simp at h
  | append_singleton ls last ih =>
    rw [programWith_append, ofLine, List.filter_append]
    by_cases here : k < ls.length
    · -- the last line is another one
      rw [List.getElem?_append_left here] at h
      have rest : (row index (ls.length + 1) (size ls) (cellsOf last)).filter (fun p => p.line = k + 1) = [] := by
        rw [List.filter_eq_nil_iff]
        intro p hp
        rw [line_of_mem_row hp, decide_eq_true_iff]
        omega
      rw [rest, List.append_nil, List.take_append_of_le_length (Nat.le_of_lt here)]
      exact ih h
    · have last_line : k = ls.length := by
        have := (List.getElem?_eq_some_iff.1 h).1
        rw [List.length_append, List.length_singleton] at this
        omega
      subst last_line
      rw [List.getElem?_concat_length] at h
      cases h
      have before : (programWith index ls).filter (fun p => p.line = ls.length + 1) = [] := by
        rw [List.filter_eq_nil_iff]
        intro p hp
        have := line_le_of_mem hp
        rw [decide_eq_true_iff]
        omega
      have whole : (row index (ls.length + 1) (size ls) (cellsOf text)).filter (fun p => p.line = ls.length + 1)
          = row index (ls.length + 1) (size ls) (cellsOf text) := by
        rw [List.filter_eq_self]
        intro p hp
        rw [line_of_mem_row hp, decide_eq_true_iff]
      rw [before, whole, List.nil_append, List.take_left]

/-- The instructions of a program stand in its order: those of a line follow those of the lines before it. -/
theorem drop_programWith (index : String → Word) {k : Nat} (h : ls[k]? = some text) :
    ((programWith index ls).drop (size (ls.take k))).take (cellsOf text).length
      = row index (k + 1) (size (ls.take k)) (cellsOf text) := by
  induction ls using List.reverseRecOn with
  | nil => simp at h
  | append_singleton ls last ih =>
    rw [programWith_append]
    by_cases here : k < ls.length
    · rw [List.getElem?_append_left here] at h
      have within : size (ls.take k) + (cellsOf text).length ≤ size ls := by
        have cut : ls = ls.take k ++ ([text] ++ ls.drop (k + 1)) := by
          obtain ⟨hk, rfl⟩ := List.getElem?_eq_some_iff.1 h
          rw [List.singleton_append, List.getElem_cons_drop, List.take_append_drop]
        have := congrArg size cut
        rw [size_append, size_append, size, size, size, size, cells_singleton] at this
        rw [size, size]
        omega
      have fits : size (ls.take k) ≤ (programWith index ls).length := by
        rw [length_programWith]; omega
      rw [List.take_append_of_le_length (Nat.le_of_lt here), List.drop_append_of_le_length fits,
        List.take_append_of_le_length]
      · exact ih h
      · rw [List.length_drop, length_programWith]; omega
    · have last_line : k = ls.length := by
        have := (List.getElem?_eq_some_iff.1 h).1
        rw [List.length_append, List.length_singleton] at this
        omega
      subst last_line
      rw [List.getElem?_concat_length] at h
      cases h
      rw [List.take_left, ← length_programWith index ls, List.drop_left, List.take_of_length_le]
      exact Nat.le_of_eq (length_row _ _ _ _)

/-! ## Assembled texts -/

/-- What is known of a text that is assembled. -/
theorem assemble_eq_ok {cs : List Char} {placed : List Placed} (h : assemble cs = .ok placed) :
    ∃ a, Assembler.feedLines {} 1 (Text.lines cs) = .ok a ∧ Agrees a (Text.lines cs) ∧
      firstError? [] (Text.lines cs) = none ∧ undefined (Text.lines cs) = [] ∧
      placed = programWith (fun name => wordIndex (indexOf (Text.lines cs) name)) (Text.lines cs) := by
  rw [assemble] at h
  cases hf : Assembler.feedLines {} 1 (Text.lines cs) with
  | error e => rw [hf] at h; cases h
  | ok a =>
    rw [hf] at h
    obtain ⟨agrees, fine⟩ := agrees_of_feedLines agrees_empty hf
    rw [List.nil_append] at agrees
    have hp : a.finish = .ok placed := h
    rw [finish_eq agrees, finished] at hp
    split at hp
    · next none_undefined =>
      cases hp
      exact ⟨a, rfl, agrees, fine, none_undefined, rfl⟩
    · cases hp

/-- A label is defined by the first line that defines it. -/
theorem definition?_of_label? {k : Nat} {name : String} (h : ls[k]? = some text) (hl : label? text = some name)
    (hn : (labels ls).Nodup) : definition? name ls = some (size (ls.take k), k + 1) := by
  have cut : ls = ls.take k ++ text :: ls.drop (k + 1) := by
    obtain ⟨hk, rfl⟩ := List.getElem?_eq_some_iff.1 h
    rw [List.getElem_cons_drop, List.take_append_drop]
  have fresh : definition? name (ls.take k) = none := by
    rw [definition?_eq_none_iff]
    intro hm
    rw [cut, labels, List.filterMap_append, List.filterMap_cons_some hl] at hn
    exact (List.nodup_append.1 hn).2.2 name hm name List.mem_cons_self rfl
  have long : (ls.take k).length = k := by
    rw [List.length_take]
    have := (List.getElem?_eq_some_iff.1 h).1
    omega
  have whole := definition?_append name (ls.take k) (text :: ls.drop (k + 1))
  rw [← cut, fresh, Option.none_or, definition?, if_pos hl, long] at whole
  exact whole

/-- A label that is taken stands where a jump can name it. -/
theorem reachable_of_feedLines {a b : Assembler} {before : List (List Char)} {k : Nat} {name : String} (h : Agrees a before)
    (hb : a.feedLines (before.length + 1) ls = .ok b) (hk : ls[k]? = some text) (hl : label? text = some name) :
    (wordIndex (size (before ++ ls.take k))).toNat < Instr.indexLimit := by
  induction ls generalizing a before k with
  | nil => cases hk
  | cons first rest ih =>
    rw [Assembler.feedLines] at hb
    cases hc : a.feed (before.length + 1) first with
    | error e => rw [hc] at hb; cases hb
    | ok c =>
      rw [hc] at hb
      have fed : a.feedLines (before.length + 1) [first] = .ok c := by
        rw [Assembler.feedLines, hc]; rfl
      have next : Agrees c (before ++ [first]) := (agrees_of_feedLines h fed).1
      cases k with
      | zero =>
        obtain rfl : first = text := by simpa using hk
        rw [List.take_zero, List.append_nil]
        by_contra far
        have accepted : accept first = .ok (some (.label name)) := by
          have known := statement?_of_label? hl
          unfold statement? at known
          split at known
          · next accepted => rw [accepted, known]
          · cases known
        rw [feed_of_accept_ok _ accepted] at hc
        have beyond : Assembler.jumpIndex a.pc = .error (.unreachable a.pc) := by
          rw [Assembler.jumpIndex, h.pc]
          exact if_neg far
        cases hd : a.labels.define name a.pc (before.length + 1) with
        | error e => simp only [Assembler.feedStatement, hd, bind, Except.bind] at hc; cases hc
        | ok d => simp only [Assembler.feedStatement, hd, beyond, bind, Except.bind] at hc; cases hc
      | succ k =>
        have there := ih next (by rw [length_concat]; exact hb) hk
        rwa [List.take_succ_cons, List.append_cons]

end TwoPass

end M32.Assembly
