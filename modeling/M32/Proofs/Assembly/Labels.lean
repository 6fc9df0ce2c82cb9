/-
  Which names work as labels.

  A name of a label may be an integer literal as well, and a jump takes it for one; and the word of the mark of
  pseudo-instructions before a colon is taken for the mark.
  1. `label?_labelLine`, `accept_jumpLine`: what lines with a name of a label are, whatever the name is.
  2. `Hosts` are lines that define a label and are all right otherwise.  They are taken if and only if the name `Works`
     (`Hosts.works_of_taken`, `Hosts.taken_of_works`), and then a jump to the label is `Hosts.cellsOf_jump`.
  3. `labels_work` says what becomes of a text with such lines.
-/
import M32.Proofs.Assembly.Statement.Labels
import M32.Proofs.Assembly.TwoPass.Reach

namespace M32.Assembly

open TwoPass
open Statement (IsLabelLine IsJumpLine)

variable {name line : List Char} {ls : List (List Char)} {k : Nat} {link : Bool}

/-! ## Lines -/

theorem accept_labelLine (legal : Label.isName name = true) (h : IsLabelLine name line) :
    accept line = if name = "macro".toList then .error (.pseudo (.malformed "")) else .ok (some (.label (String.ofList name))) := by
  rw [accept, Statement.read_labelLine legal h]
  by_cases mark : name = "macro".toList
  · rw [if_pos mark]
  · rw [if_neg mark]

theorem label?_labelLine (legal : Label.isName name = true) (h : IsLabelLine name line) (plain : name ≠ "macro".toList) :
    label? line = some (String.ofList name) := by
  rw [label?, statement?, accept_labelLine legal h, if_neg plain]

/-- What a jump to a name is. -/
theorem accept_jumpLine (legal : Label.isName name = true) (h : IsJumpLine link name line) :
    accept line = match Label.literal? name with
      | some n =>
        if n < Instr.indexLimit then .ok (some (.instr (.jump link (UInt32.ofNat n))))
        else .error (.outOfRange (String.ofList name) .index)
      | none => .ok (some (.jump link (String.ofList name))) := by
  rw [accept, Statement.read_jumpLine h, Statement.readJump_of_isName legal]
  cases Label.literal? name with
  | none => rfl
  | some n =>
    by_cases small : n < Instr.indexLimit
    · simp only [if_pos small, Except.map]
    · simp only [if_neg small, Except.map]

/-! ## Texts with a label -/

/-- The address after the first `k` lines. -/
def addressAt (k : Nat) (ls : List (List Char)) : Word := UInt32.ofNat (4 * size (ls.take k))

/-- Lines of which line `k` has the form that defines a label, and that are all right but for what comes of the name: every other
    line is accepted or is a jump to the label, no label is defined twice, and jumps reach all other labels. -/
structure Hosts (name : List Char) (k : Nat) (ls : List (List Char)) : Prop where
  legal : Label.isName name = true
  here : ∃ line, ls[k]? = some line ∧ IsLabelLine name line
  accepted : ∀ j line, ls[j]? = some line → j ≠ k → (∃ s?, accept line = .ok s?) ∨ ∃ link, IsJumpLine link name line
  nodup : (labels ls).Nodup
  reach : ∀ j line other, ls[j]? = some line → j ≠ k → label? line = some other → Reachable (size (ls.take j))

/-- Whether a name works as the label in line `k`. -/
structure Works (name : List Char) (k : Nat) (ls : List (List Char)) : Prop where
  plain : name ≠ "macro".toList
  reach : Reachable (size (ls.take k))
  /-- Jumps that take the name for an index take it for one that there is. -/
  small : ∀ line ∈ ls, ∀ link, IsJumpLine link name line → ∀ n ∈ Label.literal? name, n < Instr.indexLimit

theorem Hosts.works_of_taken (h : Hosts name k ls) (taken : ∃ a, Assembler.feedLines {} 1 ls = .ok a) : Works name k ls := by
  obtain ⟨fine, reach⟩ := feedLines_eq_ok_iff.1 taken
  obtain ⟨accepted, -⟩ := firstError?_eq_none_iff.1 fine
  obtain ⟨line, hk, form⟩ := h.here
  have plain : name ≠ "macro".toList := by
    intro mark
    obtain ⟨s?, hs⟩ := accepted line (List.mem_of_getElem? hk)
    rw [accept_labelLine h.legal form, if_pos mark] at hs
    cases hs
  refine ⟨plain, reach k line _ hk (label?_labelLine h.legal form plain), ?_⟩
  -- a jump that takes the name for too large an index would be refused
  intro jump hj link form n hn
  by_contra large
  obtain ⟨s?, hs⟩ := accepted jump hj
  rw [accept_jumpLine h.legal form, Option.mem_def.1 hn] at hs
  simp only [if_neg large] at hs
  cases hs

theorem Hosts.taken_of_works (h : Hosts name k ls) (works : Works name k ls) : ∃ a, Assembler.feedLines {} 1 ls = .ok a := by
  obtain ⟨label, hk, form⟩ := h.here
  have accepted : ∀ line ∈ ls, ∃ s?, accept line = .ok s? := by
    intro line hl
    obtain ⟨j, hj⟩ := List.getElem?_of_mem hl
    by_cases here : j = k
    · subst here
      rw [hk] at hj
      cases hj
      exact ⟨_, (accept_labelLine h.legal form).trans (if_neg works.plain)⟩
    · rcases h.accepted j line hj here with fine | ⟨link, jump⟩
      · exact fine
      · rw [accept_jumpLine h.legal jump]
        cases hn : Label.literal? name with
        | none => exact ⟨_, rfl⟩
        | some n => exact ⟨_, if_pos (works.small line hl link jump n hn)⟩
  refine feedLines_eq_ok_iff.2 ⟨firstError?_eq_none_iff.2 ⟨accepted, h.nodup, fun _ _ => List.not_mem_nil⟩, ?_⟩
  intro j line other hj hl
  by_cases here : j = k
  · rw [here]
    exact works.reach
  · exact h.reach j line other hj here hl

/-- The label stands in its line, whatever other lines there are. -/
theorem Hosts.definition?_eq (h : Hosts name k ls) (plain : name ≠ "macro".toList) :
    definition? (String.ofList name) ls = some (size (ls.take k), k + 1) := by
  obtain ⟨line, hk, form⟩ := h.here
  exact definition?_of_label? hk (label?_labelLine h.legal form plain) h.nodup

theorem Hosts.get?_eq (h : Hosts name k ls) {a : Assembler} (taken : Assembler.feedLines {} 1 ls = .ok a) :
    a.labels.get? (String.ofList name) = some (addressAt k ls) := by
  have plain := (h.works_of_taken ⟨a, taken⟩).plain
  have agrees := (agrees_of_feedLines agrees_empty taken).1
  rw [LabelTable.get?, agrees.find, List.nil_append, binding?, h.definition?_eq plain]
  rfl

/-- A jump to the label has the name for its index if this is a literal, and else that of the label. -/
theorem Hosts.cellsOf_jump (h : Hosts name k ls) (works : Works name k ls) (hl : line ∈ ls) (jump : IsJumpLine link name line) :
    ∃ cell, cellsOf line = [cell] ∧ cell.aimed (fun other => wordIndex (indexOf ls other))
      = .jump link (((Label.literal? name).map UInt32.ofNat).getD (addressAt k ls >>> 2)) := by
  rw [cellsOf, statement?, accept_jumpLine h.legal jump]
  cases hn : Label.literal? name with
  | none =>
    refine ⟨_, rfl, ?_⟩
    show Instr.jump link (wordIndex (indexOf ls (String.ofList name))) = _
    rw [indexOf, h.definition?_eq works.plain]
    rfl
  | some n =>
    simp only [if_pos (works.small line hl link jump n hn)]
    exact ⟨_, rfl, rfl⟩

/-! ## All texts with a label -/

/-- What becomes of a legal name for a label, in a text that is all right otherwise.
    1. The lines are taken, and the label is defined, unless the name is the word of the mark, jumps cannot reach the label, or
       one has a name that is a literal above all indices.
    2. Then the label stands at the address of the next instruction.
    3. The text is assembled if all other labels that jumps name are defined besides.
    4. Every jump to the label, before or after it, is an instruction that goes there, unless the name is a literal of another
       value: it goes to the index of this value then.
    5. A name with a letter or a dot is no literal. -/
theorem labels_work (text name : List Char) (k : Nat) (h : Hosts name k (Text.lines text)) :
    ((∃ a, Assembler.feedLines {} 1 (Text.lines text) = .ok a) ↔ Works name k (Text.lines text)) ∧
    (∀ a, Assembler.feedLines {} 1 (Text.lines text) = .ok a →
      a.labels.get? (String.ofList name) = some (addressAt k (Text.lines text))) ∧
    ((∃ placed, assemble text = .ok placed) ↔
      Works name k (Text.lines text) ∧ ∀ target ∈ targets (Text.lines text), target ∈ labels (Text.lines text)) ∧
    (∀ placed, assemble text = .ok placed → ∀ i line link, (Text.lines text)[i]? = some line → IsJumpLine link name line →
      ∃ p, ofLine placed (i + 1) = [p] ∧
        p.instr = .jump link (((Label.literal? name).map UInt32.ofNat).getD (addressAt k (Text.lines text) >>> 2)) ∧
        (p.instr = .jump link (addressAt k (Text.lines text) >>> 2) ↔
          Label.literal? name = none ∨ Label.literal? name = some (addressAt k (Text.lines text) >>> 2).toNat)) ∧
    ∀ c ∈ name, c ≠ '_' → c.isDigit = false → Label.literal? name = none := by
  have taken_iff : (∃ a, Assembler.feedLines {} 1 (Text.lines text) = .ok a) ↔ Works name k (Text.lines text) :=
    ⟨h.works_of_taken, h.taken_of_works⟩
  refine ⟨taken_iff, ?_, ?_, ?_, ?_⟩
  · intro a taken
    exact h.get?_eq taken
  · rw [assemble_eq_ok_iff, taken_iff]
  · intro placed assembled i line link hi jump
    obtain ⟨a, taken, -, -, -, rfl⟩ := assemble_eq_ok assembled
    have works := h.works_of_taken ⟨a, taken⟩
    have hl := List.mem_of_getElem? hi
    obtain ⟨cell, hc, aimed⟩ := h.cellsOf_jump works hl jump
    refine ⟨⟨UInt32.ofNat (4 * size ((Text.lines text).take i)), i + 1, _⟩, ?_, aimed, ?_⟩
    · rw [ofLine_programWith _ hi, hc]
      rfl
    show cell.aimed _ = _ ↔ _
    rw [aimed]
    cases hn : Label.literal? name with
    | none => exact ⟨fun _ => .inl rfl, fun _ => rfl⟩
    | some n =>
      -- indices are below 2^26, so no two of them are the same word
      have small : n < 0x100000000 := Nat.lt_trans (works.small line hl link jump n hn) (by decide)
      constructor
      · intro same
        have index : UInt32.ofNat n = addressAt k (Text.lines text) >>> 2 := (Instr.jump.inj same).2
        rw [← index, UInt32.toNat_ofNat_of_lt' small]
        exact .inr rfl
      · rintro (none_read | same)
        · cases none_read
        · rw [Option.some.inj same]
          exact congrArg (Instr.jump link) UInt32.ofNat_toNat
  · intro c hc other letter
    exact Label.literal?_eq_none h.legal hc other letter

/-- A label with a literal for its name, to which a jump does not go, and one with the word of the mark, which cannot be defined. -/
theorem labels_work_literal :
    (∃ placed p, assemble "_1:\nj _1\n".toList = .ok placed ∧ ofLine placed 2 = [p] ∧ p.instr = .jump false 1 ∧
      addressAt 0 (Text.lines "_1:\nj _1\n".toList) >>> 2 = 0) ∧
    ¬ ∃ a, Assembler.feedLines {} 1 (Text.lines "macro:\n".toList) = .ok a := by
  have first : Text.lines "_1:\nj _1\n".toList = ["_1:".toList, "j _1".toList] := by decide
  have second : Text.lines "macro:\n".toList = ["macro:".toList] := by decide
  constructor
  · have jump : IsJumpLine false "_1".toList "j _1".toList := ⟨"j".toList, by decide, by decide⟩
    have hosts : Hosts "_1".toList 0 (Text.lines "_1:\nj _1\n".toList) := by
      rw [first]
      refine ⟨by decide, ⟨_, rfl, by unfold IsLabelLine; decide⟩, ?_, by decide +kernel, ?_⟩
      · rintro (_ | _ | j) line hj other
        · exact absurd rfl other
        · cases hj
          exact .inr ⟨false, jump⟩
        · cases hj
      · rintro (_ | _ | j) line name hj other hl
        · exact absurd rfl other
        · cases hj
          exact absurd hl (by rw [show label? "j _1".toList = none by decide +kernel]; nofun)
        · cases hj
    obtain ⟨-, -, accepted, jumps, -⟩ := labels_work _ _ 0 hosts
    have works : Works "_1".toList 0 (Text.lines "_1:\nj _1\n".toList) := by
      refine ⟨by decide, by decide +kernel, ?_⟩
      intro line hl link form n hn
      rw [show Label.literal? "_1".toList = some 1 by decide +kernel] at hn
      cases hn
      decide
    obtain ⟨placed, hp⟩ := accepted.2 ⟨works, by decide +kernel⟩
    obtain ⟨p, one, aimed, -⟩ := jumps placed hp 1 _ false (by rw [first]; rfl) jump
    refine ⟨placed, p, hp, one, ?_, by decide +kernel⟩
    rw [aimed, show Label.literal? "_1".toList = some 1 by decide +kernel]
    rfl
  · have hosts : Hosts "macro".toList 0 (Text.lines "macro:\n".toList) := by
      rw [second]
      refine ⟨by decide, ⟨_, rfl, by unfold IsLabelLine; decide⟩, ?_, by decide +kernel, ?_⟩
      · rintro (_ | j) line hj other
        · exact absurd rfl other
        · cases hj
      · rintro (_ | j) line name hj other hl
        · exact absurd rfl other
        · cases hj
    rw [(labels_work _ _ 0 hosts).1]
    exact fun works => works.plain rfl

end M32.Assembly
