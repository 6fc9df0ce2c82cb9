/-
  Integer literals against their grammar.

  1. `HasValue` says what number a row of digits and separators is, by the places of the digits.
  2. `IsLiteral` is the grammar: a sign or none, a base mark or none, and a row of digits of that base (`IsSign`, `IsMark`, `IsRow`).
     It says which characters are digits without the reader (`IsDigitIn`), and the reader knows the same ones
     (`digitValue?_eq_some_iff`).
  3. What the reader splits off a text is a sign and a mark (`exists_sign`, `exists_mark`).  No row starts with a sign, and no
     decimal row has a mark in it, so it splits off no more than these (`splitSign_append`, `splitBase_append`).
  4. `literals_read` puts both directions together, with blanks around the literal.
-/
import M32.Proofs.Literal.Decimal
import M32.Proofs.Text.Words
import Mathlib.Data.List.Forall2
import Mathlib.Data.Nat.Digits.Defs
import Mathlib.Tactic.IntervalCases

namespace M32

/-! ## Values of digits -/

/-- Whether a row of digits of a base and separators has a value: that of its digits by their places, of which there is one at
    least. -/
def HasValue (base : Nat) (row : List Char) (value : Nat) : Prop :=
  ∃ ds, ds ≠ [] ∧ List.Forall₂ (fun c d => digitValue? base c = some d) (row.filter (· ≠ '_')) ds ∧
    value = Nat.ofDigits base ds.reverse

theorem digitsFrom?_eq_some_iff {base start value : Nat} {cs : List Char} :
    digitsFrom? base start cs = some value ↔ ∃ ds, List.Forall₂ (fun c d => digitValue? base c = some d) cs ds ∧
      value = start * base ^ ds.length + Nat.ofDigits base ds.reverse := by
  induction cs generalizing start with
  | nil => simp [digitsFrom?, eq_comm]
  | cons c cs ih =>
    have place (d : Nat) (ds : List Nat) : start * base ^ (d :: ds).length + Nat.ofDigits base (d :: ds).reverse =
        (start * base + d) * base ^ ds.length + Nat.ofDigits base ds.reverse := by
      rw [List.reverse_cons, Nat.ofDigits_append, Nat.ofDigits_singleton, List.length_reverse, List.length_cons, Nat.pow_succ]
      ring
    rw [digitsFrom?, Option.bind_eq_some_iff]
    constructor
    · rintro ⟨d, hd, rest⟩
      obtain ⟨ds, digits, rfl⟩ := ih.1 rest
      exact ⟨d :: ds, .cons hd digits, (place d ds).symm⟩
    · rintro ⟨ds, digits, rfl⟩
      cases digits with
      | cons hd digits => exact ⟨_, hd, ih.2 ⟨_, digits, place _ _⟩⟩

theorem digitsValue?_eq_some_iff {base value : Nat} {row : List Char} :
    digitsValue? base (row.filter (· ≠ '_')) = some value ↔ HasValue base row value := by
  unfold digitsValue? HasValue
  cases row.filter (· ≠ '_') with
  | nil => simp
  | cons c cs =>
    rw [if_neg (by simp), digitsFrom?_eq_some_iff]
    constructor
    · rintro ⟨ds, digits, rfl⟩
      refine ⟨ds, ?_, digits, by rw [Nat.zero_mul, Nat.zero_add]⟩
      rintro rfl
      cases digits
    · rintro ⟨ds, -, digits, rfl⟩
      exact ⟨ds, digits, by rw [Nat.zero_mul, Nat.zero_add]⟩

/-- A row with a value holds nothing but digits and separators. -/
theorem HasValue.only {base value : Nat} {row : List Char} (h : HasValue base row value) :
    ∀ c ∈ row, c = '_' ∨ ∃ d, digitValue? base c = some d := by
  obtain ⟨ds, -, digits, -⟩ := h
  have are_digits : ∀ c ∈ row.filter (· ≠ '_'), ∃ d, digitValue? base c = some d := by
    generalize row.filter (· ≠ '_') = cs at digits
    induction digits with
    | nil => exact List.forall_mem_nil _
    | cons first _ ih => exact List.forall_mem_cons.2 ⟨⟨_, first⟩, ih⟩
  intro c hc
  by_cases separator : c = '_'
  · exact .inl separator
  · exact .inr (are_digits c (List.mem_filter.2 ⟨hc, decide_eq_true separator⟩))

theorem HasValue.ne_nil {base value : Nat} {row : List Char} (h : HasValue base row value) : row ≠ [] := by
  rintro rfl
  obtain ⟨ds, some_digit, digits, -⟩ := h
  cases digits
  exact some_digit rfl

/-- Digits are ASCII characters from `0` to `f`. -/
theorem toNat_of_digitValue? {base d : Nat} {c : Char} (h : digitValue? base c = some d) : 48 ≤ c.toNat ∧ c.toNat ≤ 102 := by
  unfold digitValue? at h
  grind

namespace Literal

/-! ## The grammar -/

/-- Whether a character is the digit of a value in a base: `0` to `9`, then the letters from `a` on in either case. -/
def IsDigitIn (base : Nat) (c : Char) (d : Nat) : Prop := d < base ∧ (c = d.digitChar ∨ c = d.digitChar.toUpper)

/-- Whether a row of digits and separators, with one digit at least, is a number of a base. -/
def IsRow (base : Nat) (row : List Char) (m : Nat) : Prop :=
  ∃ ds, ds ≠ [] ∧ List.Forall₂ (IsDigitIn base) (row.filter (· ≠ '_')) ds ∧ m = Nat.ofDigits base ds.reverse

/-- A sign or none, and whether it makes the number negative. -/
inductive IsSign : List Char → Bool → Prop where
  | absent : IsSign [] false
  | plus : IsSign ['+'] false
  | minus : IsSign ['-'] true

/-- A base mark or none, and the base. -/
inductive IsMark : List Char → Nat → Prop where
  | absent : IsMark [] 10
  | hex {x : Char} (h : x = 'x' ∨ x = 'X') : IsMark ['0', x] 16
  | octal {o : Char} (h : o = 'o' ∨ o = 'O') : IsMark ['0', o] 8
  | binary {b : Char} (h : b = 'b' ∨ b = 'B') : IsMark ['0', b] 2

/-- The literals of integers. -/
inductive IsLiteral : List Char → Int → Prop where
  | intro {sign mark row : List Char} {negative : Bool} {base m : Nat} (signed : IsSign sign negative) (marked : IsMark mark base)
      (digits : IsRow base row m) (small : m ≤ 2 ^ 63 - 1) :
      IsLiteral (sign ++ mark ++ row) (if negative then -(m : Int) else m)

variable {cs sign mark row : List Char} {negative : Bool} {base m d : Nat} {c : Char}

theorem IsMark.base_le (h : IsMark mark base) : base ≤ 16 := by
  cases h <;> decide

/-- The reader knows the digits of all bases that have marks. -/
theorem digitValue?_eq_some_iff (h : base ≤ 16) : digitValue? base c = some d ↔ IsDigitIn base c d := by
  constructor
  · intro value
    refine ⟨digitValue?_lt value, ?_⟩
    have code : (48 ≤ c.toNat ∧ c.toNat ≤ 57 ∧ d = c.toNat - 48) ∨ (97 ≤ c.toNat ∧ c.toNat ≤ 102 ∧ d = c.toNat - 87) ∨
        (65 ≤ c.toNat ∧ c.toNat ≤ 70 ∧ d = c.toNat - 55) := by
      unfold digitValue? at value
      grind
    have char : c = Char.ofNat c.toNat := (Char.ofNat_toNat c).symm
    generalize c.toNat = n at char code
    subst char
    rcases code with ⟨lo, hi, rfl⟩ | ⟨lo, hi, rfl⟩ | ⟨lo, hi, rfl⟩ <;> interval_cases n <;> decide
  · rintro ⟨small, same⟩
    have bound : d < 16 := Nat.lt_of_lt_of_le small h
    interval_cases d <;> rcases same with rfl | rfl <;> exact if_pos small

theorem hasValue_iff_isRow (h : base ≤ 16) : HasValue base row m ↔ IsRow base row m := by
  simp only [HasValue, IsRow, digitValue?_eq_some_iff h]

theorem magnitude?_eq_some_iff (h : base ≤ 16) : magnitude? base row = some m ↔ IsRow base row m ∧ m ≤ 2 ^ 63 - 1 := by
  rw [magnitude?, Option.filter_eq_some_iff, digitsValue?_eq_some_iff, hasValue_iff_isRow h, decide_eq_true_eq]
  rfl

/-! ## Signs and marks -/

/-- What is split off as a sign is one. -/
theorem exists_sign (cs : List Char) : ∃ sign, IsSign sign (splitSign cs).1 ∧ cs = sign ++ (splitSign cs).2 := by
  unfold splitSign
  split
  · exact ⟨_, .minus, rfl⟩
  · exact ⟨_, .plus, rfl⟩
  · exact ⟨_, .absent, rfl⟩

/-- What is split off as a mark is one. -/
theorem exists_mark (cs : List Char) : ∃ mark, IsMark mark (splitBase cs).1 ∧ cs = mark ++ (splitBase cs).2 := by
  unfold splitBase
  split
  · exact ⟨_, .hex (.inl rfl), rfl⟩
  · exact ⟨_, .hex (.inr rfl), rfl⟩
  · exact ⟨_, .octal (.inl rfl), rfl⟩
  · exact ⟨_, .octal (.inr rfl), rfl⟩
  · exact ⟨_, .binary (.inl rfl), rfl⟩
  · exact ⟨_, .binary (.inr rfl), rfl⟩
  · exact ⟨_, .absent, rfl⟩

/-- Only the sign is split off a text that does not go on with another one. -/
theorem splitSign_append (h : IsSign sign negative) (start : ∀ c ∈ cs.head?, 48 ≤ c.toNat) : splitSign (sign ++ cs) = (negative, cs) := by
  cases h with
  | absent =>
    show splitSign cs = _
    unfold splitSign
    split
    · exact absurd (start '-' rfl) (by decide)
    · exact absurd (start '+' rfl) (by decide)
    · rfl
  | plus => rfl
  | minus => rfl

/-- Only the mark is split off a text of digits and separators. -/
theorem splitBase_append (h : IsMark mark base) (digits : HasValue base row m) : splitBase (mark ++ row) = (base, row) := by
  cases h with
  | absent =>
    -- the second character of a mark is no decimal digit
    have letter {x : Char} {cs : List Char} (hx : x ≠ '_' ∧ digitValue? 10 x = none) : row ≠ '0' :: x :: cs := by
      rintro rfl
      rcases digits.only x (by simp) with separator | ⟨d, hd⟩
      · exact hx.1 separator
      · rw [hx.2] at hd
        cases hd
    show splitBase row = _
    unfold splitBase
    split
    · exact absurd rfl (letter (by decide))
    · exact absurd rfl (letter (by decide))
    · exact absurd rfl (letter (by decide))
    · exact absurd rfl (letter (by decide))
    · exact absurd rfl (letter (by decide))
    · exact absurd rfl (letter (by decide))
    · rfl
  | hex h => rcases h with rfl | rfl <;> rfl
  | octal h => rcases h with rfl | rfl <;> rfl
  | binary h => rcases h with rfl | rfl <;> rfl

theorem IsSign.visible (h : IsSign sign negative) : ∀ c ∈ sign, 32 < c.toNat ∧ c.toNat < 128 := by
  cases h with
  | absent => exact nofun
  | plus | minus => exact List.forall_mem_singleton.2 (by decide)

theorem IsMark.toNat_mem (h : IsMark mark base) : ∀ c ∈ mark, 48 ≤ c.toNat ∧ c.toNat < 128 := by
  have pair (x : Char) (hx : 48 ≤ x.toNat ∧ x.toNat < 128) : ∀ c ∈ ['0', x], 48 ≤ c.toNat ∧ c.toNat < 128 :=
    List.forall_mem_cons.2 ⟨by decide, List.forall_mem_singleton.2 hx⟩
  cases h with
  | absent => exact nofun
  | hex h | octal h | binary h => rcases h with rfl | rfl <;> exact pair _ (by decide)

theorem toNat_of_row (digits : HasValue base row m) : ∀ c ∈ row, 48 ≤ c.toNat ∧ c.toNat ≤ 102 := by
  intro c hc
  rcases digits.only c hc with rfl | ⟨d, hd⟩
  · decide
  · exact toNat_of_digitValue? hd

/-! ## Literals -/

/-- A literal is one word. -/
theorem IsLiteral.isWord {text : List Char} {v : Int} (h : IsLiteral text v) : Text.IsWord text := by
  obtain ⟨signed, marked, digits, -⟩ := h
  have value := (hasValue_iff_isRow marked.base_le).2 digits
  constructor
  · intro none_left
    exact value.ne_nil (List.append_eq_nil_iff.1 none_left).2
  · intro c hc
    have visible : 32 < c.toNat ∧ c.toNat < 128 := by
      rw [List.mem_append, List.mem_append] at hc
      rcases hc with (hc | hc) | hc
      · exact signed.visible c hc
      · have := marked.toNat_mem c hc
        omega
      · have := toNat_of_row value c hc
        omega
    exact Text.isBlank_of_visible visible.1 visible.2

/-- What is read of a text is its literal. -/
theorem isLiteral_of_read {v : Int} (h : read? cs = some v) : IsLiteral (Text.trim cs) v := by
  obtain ⟨sign, signed, front⟩ := exists_sign (Text.trim cs)
  obtain ⟨mark, marked, middle⟩ := exists_mark (splitSign (Text.trim cs)).2
  have found : (magnitude? (splitBase (splitSign (Text.trim cs)).2).1 (splitBase (splitSign (Text.trim cs)).2).2).map
      (fun m : Nat => if (splitSign (Text.trim cs)).1 then -(m : Int) else m) = some v := h
  obtain ⟨m, hm, rfl⟩ := Option.map_eq_some_iff.1 found
  obtain ⟨digits, small⟩ := (magnitude?_eq_some_iff marked.base_le).1 hm
  have literal := IsLiteral.intro signed marked digits small
  rwa [List.append_assoc, ← middle, ← front] at literal

/-- A text that is a literal between its blanks is read as that. -/
theorem read_of_isLiteral {v : Int} (h : IsLiteral (Text.trim cs) v) : read? cs = some v := by
  generalize whole : Text.trim cs = text at h
  obtain @⟨sign, mark, row, negative, base, m, signed, marked, digits, small⟩ := h
  have value := (hasValue_iff_isRow marked.base_le).2 digits
  have start : ∀ c ∈ (mark ++ row).head?, 48 ≤ c.toNat := by
    intro c hc
    rcases List.mem_append.1 (List.mem_of_mem_head? hc) with hc | hc
    · exact (marked.toNat_mem c hc).1
    · exact (toNat_of_row value c hc).1
  rw [read?, whole, List.append_assoc, splitSign_append signed start]
  simp only [splitBase_append marked value, (magnitude?_eq_some_iff marked.base_le).2 ⟨digits, small⟩, Option.map_some]

/-- Exactly the literals are read, each as its integer, whatever blanks stand around them: an optional sign, an optional mark of
    base 16, 8 or 2, and digits of that base or decimal ones, with separators anywhere among them, at least one of them a
    digit, and of a magnitude of at most 2^63 - 1. -/
theorem literals_read (cs : List Char) (v : Int) :
    read? cs = some v ↔ ∃ before text after : List Char, cs = before ++ text ++ after ∧ (∀ c ∈ before, Text.isBlank c = true) ∧
      (∀ c ∈ after, Text.isBlank c = true) ∧ IsLiteral text v := by
  constructor
  · intro h
    obtain ⟨before, after, whole, hb, ha⟩ := Text.eq_trim cs
    exact ⟨before, Text.trim cs, after, whole, hb, ha, isLiteral_of_read h⟩
  · rintro ⟨before, text, after, rfl, hb, ha, literal⟩
    have one : Text.words (before ++ text ++ after) = [text] := by
      rw [Text.words_append_blanks ha, Text.words_blanks_append hb, Text.words_word literal.isWord]
    obtain ⟨rest, whole, only⟩ := Text.trim_of_words one
    rw [only rfl, List.append_nil] at whole
    exact read_of_isLiteral (by rwa [whole])

end Literal

end M32
