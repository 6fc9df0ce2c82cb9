/-
  Lines with names of labels, wherever their blanks stand, and names that are integers too.

  1. A line is read alike with any blanks around it (`read_trim`).  By its words, `read_labelLine` reads a line that defines a
     label, `read_opLine` one of an operation and its operands, and `read_jumpLine` a jump to a label.
  2. `Label.literal?` is the integer that a name is where an index may stand as well.  Only names of digits and underscores are one
     (`literal?_eq_none`).
-/
import M32.Proofs.Assembly.Statement.Written
import M32.Proofs.Text.Words

namespace M32.Assembly

variable {name line : List Char}

/-! ## Names -/

namespace Label

/-- The integer that a name is, if it is a literal. -/
def literal? (name : List Char) : Option Nat := (Literal.read? name).map Int.toNat

/-- Names start with no sign and no base mark, so as literals they are decimal digits. -/
theorem read?_of_isName (h : isName name = true) : Literal.read? name = (Literal.magnitude? 10 name).map fun m : Nat => (m : Int) := by
  have word := Statement.isWord_of_isName h
  rw [Literal.read?, Text.trim_of_isTrim word.isTrim]
  cases name with
  | nil => cases h
  | cons c cs =>
    have start : isStart c = true := (Bool.and_eq_true_iff.1 h).1
    have unsigned : Literal.splitSign (c :: cs) = (false, c :: cs) := by
      unfold Literal.splitSign
      split
      · next hc => cases hc; exact absurd start (by decide)
      · next hc => cases hc; exact absurd start (by decide)
      · rfl
    have unmarked : Literal.splitBase (c :: cs) = (10, c :: cs) := by
      have zero : c ≠ '0' := by
        rintro rfl
        exact absurd start (by decide)
      unfold Literal.splitBase
      split <;> simp_all
    simp only [unsigned, unmarked, Bool.false_eq_true, if_false]

/-- Only a name of digits and underscores is a literal. -/
theorem literal?_eq_none (h : isName name = true) {c : Char} (hc : c ∈ name) (other : c ≠ '_') (letter : c.isDigit = false) :
    literal? name = none := by
  rw [literal?, read?_of_isName h, Option.map_eq_none_iff, Option.map_eq_none_iff, Literal.magnitude?]
  have none_read : digitsValue? 10 (name.filter (· ≠ '_')) = none := by
    by_contra read
    obtain ⟨v, hv⟩ := Option.ne_none_iff_exists'.1 read
    rw [digitsValue?] at hv
    split at hv
    · cases hv
    · have digit := digitsFrom?_ten hv c (List.mem_filter.2 ⟨hc, decide_eq_true other⟩)
      rw [letter] at digit
      cases digit
  rw [none_read]
  rfl

end Label

/-! ## Lines -/

namespace Statement

/-- A line that defines a label, by its form. -/
def IsLabelLine (name line : List Char) : Prop := Text.words line = [name ++ [':']]

/-- A jump with a name for its operand, by its form. -/
def IsJumpLine (link : Bool) (name line : List Char) : Prop :=
  ∃ w, Text.words line = [w, name] ∧ Op.ofName? w = some (.jump link)

theorem read_trim (line : List Char) : read (Text.trim line) = read line := by
  rw [read, read, Text.trim_trim]

theorem read_eq_of_isLabelLine (h : IsLabelLine name line) : read line = read (name ++ [':']) := by
  obtain ⟨rest, trimmed, last⟩ := Text.trim_of_words h
  rw [last rfl, List.append_nil] at trimmed
  rw [← read_trim, trimmed]

/-- A line that defines a label is read as such, unless the name is the word of the mark: then it is no statement. -/
theorem read_labelLine (legal : Label.isName name = true) (h : IsLabelLine name line) :
    read line = if name = "macro".toList then .error (.pseudo (.malformed "")) else .ok (some (.label (String.ofList name))) := by
  rw [read_eq_of_isLabelLine h]
  split
  · next mark => rw [mark]; exact read_label_mark
  · next plain => exact read_label legal plain

/-- A line that starts with the name of an operation, in any ASCII case, is read as one of this operation. -/
theorem read_opLine {op : Op} {w : List Char} {args : List (List Char)} (hw : Text.words line = w :: args)
    (hop : Op.ofName? w = some op) : read line = (readOperands op args).map some := by
  obtain ⟨rest, trimmed, -⟩ := Text.trim_of_words hw
  have named : op.name = String.ofList (w.map Char.toLower) := by simpa using List.find?_some hop
  have lower : w.map Char.toLower = op.name.toList := by rw [named, String.toList_ofList]
  -- the small form of the line starts with the name itself, and `#`, the mark and `:` have one case only
  have lower_line : (w ++ rest).map Char.toLower = op.name.toList ++ rest.map Char.toLower := by rw [List.map_append, lower]
  have some_text : w ++ rest ≠ [] := fun none => by
    rw [(List.append_eq_nil_iff.1 none).1] at lower
    exact (isWord_op_name op).1 lower.symm
  have no_hash : (w ++ rest).head? ≠ some '#' := fun hash => by
    refine head?_op_name op (rest.map Char.toLower) ?_
    rw [← lower_line, List.head?_map, hash]
    rfl
  have no_mark : Text.dropPrefix? Pseudo.mark.toList (w ++ rest) = none := by
    have none_lower := dropPrefix?_mark_op op (rest.map Char.toLower)
    rw [Text.dropPrefix?] at none_lower ⊢
    split at none_lower
    · cases none_lower
    · next unmarked =>
      refine if_neg fun marked => unmarked ?_
      rw [← lower_line]
      exact List.isPrefixOf_iff_prefix.2 ((List.isPrefixOf_iff_prefix.1 marked).map Char.toLower)
  have same : Text.words (w ++ rest) = w :: args := by rw [← trimmed, Text.words_trim, hw]
  have no_label : labelForm? (w ++ rest) = none := by
    rw [labelForm?, same]
    split
    · next word one =>
      cases one
      rw [Text.dropEnd?, if_neg]
      intro colon
      have last : op.name.toList.getLast? = some ':' := by
        rw [← lower, List.getLast?_map, colon]
        rfl
      exact getLast?_op_name op last
    · rfl
  rw [read_of_words trimmed some_text no_hash no_mark no_label, same, readWords, hop]

/-- A jump with a name for its operand is read as one. -/
theorem read_jumpLine {link : Bool} (h : IsJumpLine link name line) : read line = (readJump link name).map some := by
  obtain ⟨w, hw, op⟩ := h
  exact read_opLine hw op

/-- A jump to a name goes to its label, unless the name is a literal: then it goes to that index. -/
theorem readJump_of_isName (legal : Label.isName name = true) (link : Bool) :
    readJump link name = match Label.literal? name with
      | some n =>
        if n < Instr.indexLimit then .ok (.instr (.jump link (UInt32.ofNat n)))
        else .error (.outOfRange (String.ofList name) .index)
      | none => .ok (.jump link (String.ofList name)) := by
  rw [readJump, Label.literal?, Operand.index, Operand.unsigned, Operand.integer, Label.read?_of_isName legal]
  cases Literal.magnitude? 10 name with
  | none => simp [legal]
  | some n =>
    have fits : fitsUnsigned 26 (n : Int) = decide (n < Instr.indexLimit) := by
      simp only [fitsUnsigned, Int.natCast_nonneg, decide_true, Bool.true_and, Int.ofNat_eq_natCast, Int.ofNat_lt]
      rfl
    simp only [Option.map_some, fits, decide_eq_true_eq, Int.toNat_natCast]
    split <;> rfl

end Statement

end M32.Assembly
