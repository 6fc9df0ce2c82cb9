/-
  The assembler against a plain one of two passes: texts of any length.

  A line that is right is refused only for an address that no jump reaches: that of a label it defines, or of one it names
  (`feed_of_reach`).  So lines are taken if and only if none is wrong and all labels stand where jumps can name them
  (`feedLines_eq_ok_iff`), and assembled if and only if every label is defined besides (`assemble_eq_ok_iff`).
-/
import M32.Proofs.Assembly.TwoPass.Rows

namespace M32.Assembly.TwoPass

variable {ls ms : List (List Char)} {text : List Char} {name : String} {a : Assembler}

/-- Whether a jump can name the place after so many instructions. -/
def Reachable (n : Nat) : Prop := (wordIndex n).toNat < Instr.indexLimit

instance : DecidablePred Reachable := fun n => inferInstanceAs (Decidable ((wordIndex n).toNat < Instr.indexLimit))

theorem jumpIndex_of_reachable {n : Nat} (h : Reachable n) : Assembler.jumpIndex (UInt32.ofNat (4 * n)) = .ok (wordIndex n) :=
  if_pos h

/-- A label is defined by a line. -/
theorem line_of_definition? {d : Nat × Nat} (h : definition? name ls = some d) :
    ∃ k text, ls[k]? = some text ∧ label? text = some name ∧ d.1 = size (ls.take k) := by
  induction ls generalizing d with
  | nil => cases h
  | cons first ls ih =>
    rw [definition?] at h
    split at h
    · next here =>
      cases h
      exact ⟨0, first, rfl, here, rfl⟩
    · obtain ⟨e, he, rfl⟩ := Option.map_eq_some_iff.1 h
      obtain ⟨k, text, hk, hl, hs⟩ := ih he
      refine ⟨k + 1, text, hk, hl, ?_⟩
      rw [List.take_succ_cons, ← List.singleton_append, size_append, ← hs, size, cells_singleton]

/-- A line that is right is taken, if jumps reach the labels that are defined so far and the one that it defines. -/
theorem feed_of_reach (h : Agrees a ls) (ho : offence? ls text = none) (here : ∀ name, label? text = some name → Reachable (size ls))
    (before : ∀ name d, definition? name ls = some d → Reachable d.1) :
    ∃ b, a.feed (ls.length + 1) text = .ok b ∧ Agrees b (ls ++ [text]) := by
  rcases feed_of_fine h ho with taken | ⟨-, e, refused⟩
  · exact taken
  exfalso
  cases hx : accept text with
  | error fault => rw [offence?, hx] at ho; cases ho
  | ok s? =>
    have hs : statement? text = s? := by rw [statement?, hx]
    rw [feed_of_accept_ok _ hx] at refused
    rcases s? with _ | s
    · cases refused
    cases s with
    | instr i => cases refused
    | pseudo p =>
      simp only [Assembler.feedStatement, expand_of_accept hx] at refused
      cases refused
    | jump link name =>
      have hf := h.find name
      cases hd : definition? name ls with
      | none =>
        simp only [Assembler.feedStatement, h.reference hd] at refused
        cases refused
      | some d =>
        rw [binding?, hd] at hf
        simp only [Assembler.feedStatement, LabelTable.reference, hf, jumpIndex_of_reachable (before name d hd)] at refused
        cases refused
    | label name =>
      have fresh : definition? name ls = none := by
        rw [offence?, hx] at ho
        exact Option.map_eq_none_iff.1 ho
      have hj := jumpIndex_of_reachable (here name (by rw [label?, hs]))
      rw [← h.pc] at hj
      simp only [Assembler.feedStatement, h.define fresh, hj, bind, Except.bind] at refused
      cases refused

/-- Lines that are all right are all taken, if jumps reach all labels. -/
theorem feedLines_of_reach (h : Agrees a ls) (ho : firstError? ls ms = none)
    (reach : ∀ k text name, (ls ++ ms)[k]? = some text → label? text = some name → Reachable (size ((ls ++ ms).take k))) :
    ∃ b, a.feedLines (ls.length + 1) ms = .ok b ∧ Agrees b (ls ++ ms) := by
  induction ms generalizing a ls with
  | nil => exact ⟨a, rfl, by rwa [List.append_nil]⟩
  | cons text ms ih =>
    rw [firstError?] at ho
    split at ho
    · cases ho
    next fine =>
    have here : ∀ name, label? text = some name → Reachable (size ls) := by
      intro name hl
      have := reach ls.length text name (by simp) hl
      rwa [List.take_left] at this
    -- a label that is defined already stands in one of the lines before
    have before : ∀ name d, definition? name ls = some d → Reachable d.1 := by
      intro name d hd
      obtain ⟨k, line, hk, hl, hs⟩ := line_of_definition? hd
      have within := (List.getElem?_eq_some_iff.1 hk).1
      have := reach k line name (by rw [List.getElem?_append_left within]; exact hk) hl
      rwa [List.take_append_of_le_length (Nat.le_of_lt within), ← hs] at this
    obtain ⟨b, hb, agrees⟩ := feed_of_reach h fine here before
    rw [List.append_cons] at reach
    obtain ⟨c, hc, all⟩ := ih agrees ho reach
    rw [length_concat] at hc
    refine ⟨c, ?_, by rwa [List.append_cons]⟩
    rw [Assembler.feedLines, hb]
    exact hc

/-- Lines are taken if and only if none is wrong and jumps reach all labels. -/
theorem feedLines_eq_ok_iff : (∃ b, Assembler.feedLines {} 1 ls = .ok b) ↔
    firstError? [] ls = none ∧ ∀ k text name, ls[k]? = some text → label? text = some name → Reachable (size (ls.take k)) := by
  constructor
  · rintro ⟨b, hb⟩
    refine ⟨(agrees_of_feedLines agrees_empty hb).2, fun k text name hk hl => ?_⟩
    have reach := reachable_of_feedLines agrees_empty hb hk hl
    rwa [List.nil_append] at reach
  · rintro ⟨fine, reach⟩
    obtain ⟨b, hb, -⟩ := feedLines_of_reach agrees_empty fine reach
    exact ⟨b, hb⟩

/-- A text is assembled if and only if its lines are taken and every label that a jump names is defined. -/
theorem assemble_eq_ok_iff {cs : List Char} : (∃ placed, assemble cs = .ok placed) ↔
    (∃ b, Assembler.feedLines {} 1 (Text.lines cs) = .ok b) ∧ ∀ name ∈ targets (Text.lines cs), name ∈ labels (Text.lines cs) := by
  rw [← undefined_eq_nil_iff]
  constructor
  · rintro ⟨placed, h⟩
    obtain ⟨b, hb, -, -, defined, -⟩ := assemble_eq_ok h
    exact ⟨⟨b, hb⟩, defined⟩
  · rintro ⟨⟨b, hb⟩, defined⟩
    have agrees := (agrees_of_feedLines agrees_empty hb).1
    rw [assemble, hb]
    show ∃ placed, b.finish = .ok placed
    rw [finish_eq agrees, List.nil_append, finished, defined]
    exact ⟨_, rfl⟩

end M32.Assembly.TwoPass
