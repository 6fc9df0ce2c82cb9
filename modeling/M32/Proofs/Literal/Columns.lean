/-
  Numbers of a fixed width.

  1. `IsNumeral` says what number a row of digits is, by the places of the digits.  There is one such row of each width for a
     number that fits, so it says all of what is written.
  2. What `Text.digits` and `Text.hex` write is such a row (`isNumeral_digits`, `isNumeral_hex`), and two rows side by side are one
     (`IsNumeral.append`).
  3. After the mark of the base such a row is the literal of its number (`IsNumeral.read?`).
-/
import M32.Proofs.Literal.Grammar
import M32.Text.Columns

namespace M32

/-- Whether a text is a number in exactly `width` digits of a base, the highest first, with letters in upper case. -/
def IsNumeral (base width n : Nat) (s : String) : Prop :=
  ∃ ds : List Nat, ds.length = width ∧ (∀ d ∈ ds, d < base) ∧ s.toList = ds.map (fun d => d.digitChar.toUpper) ∧
    n = Nat.ofDigits base ds.reverse

variable {base width k l m n : Nat} {s t : String}

namespace IsNumeral

theorem length (h : IsNumeral base width n s) : s.length = width := by
  obtain ⟨ds, rfl, -, row, -⟩ := h
  rw [← String.length_toList, row, List.length_map]

/-- Two rows of digits side by side, the first of which moves up by the width of the second. -/
theorem append (hs : IsNumeral base k m s) (ht : IsNumeral base l n t) : IsNumeral base (k + l) (m * base ^ l + n) (s ++ t) := by
  obtain ⟨ds, rfl, small, row, rfl⟩ := hs
  obtain ⟨es, rfl, small', row', rfl⟩ := ht
  refine ⟨ds ++ es, List.length_append, ?_, ?_, ?_⟩
  · intro d hd
    rcases List.mem_append.1 hd with hd | hd
    · exact small d hd
    · exact small' d hd
  · rw [String.toList_append, row, row', List.map_append]
  · rw [List.reverse_append, Nat.ofDigits_append, List.length_reverse, Nat.add_comm, Nat.mul_comm]

/-- A number after the mark of base sixteen has visible characters only. -/
theorem visible_marked (h : IsNumeral 16 width n s) : ∀ c ∈ ("0x" ++ s).toList, 0x20 < c.toNat ∧ c.toNat < 0x80 := by
  obtain ⟨ds, -, digits, row, -⟩ := h
  have mark : ∀ c ∈ "0x".toList, 0x20 < c.toNat ∧ c.toNat < 0x80 :=
    List.forall_mem_cons.2 ⟨by decide, List.forall_mem_singleton.2 (by decide)⟩
  have digit : ∀ d < 16, 0x20 < d.digitChar.toUpper.toNat ∧ d.digitChar.toUpper.toNat < 0x80 := by decide
  rw [String.toList_append, row]
  intro c hc
  rcases List.mem_append.1 hc with hc | hc
  · exact mark c hc
  · obtain ⟨d, hd, rfl⟩ := List.mem_map.1 hc
    exact digit d (digits d hd)

theorem isWord_marked (h : IsNumeral 16 width n s) : Text.IsWord ("0x" ++ s).toList := by
  constructor
  · rw [String.toList_append]
    exact fun none => absurd (List.append_eq_nil_iff.1 none).1 (by decide)
  · intro c hc
    obtain ⟨low, high⟩ := h.visible_marked c hc
    exact Text.isBlank_of_visible low high

/-- After the mark of base sixteen a row of digits is the literal of its number. -/
theorem read? (h : IsNumeral 16 width n s) (wide : 0 < width) (small : n ≤ Literal.maxMagnitude) :
    Literal.read? ("0x" ++ s).toList = some (n : Int) := by
  have word := h.isWord_marked
  obtain ⟨ds, rfl, digits, row, rfl⟩ := h
  have no_separator : ∀ d < 16, d.digitChar.toUpper ≠ '_' := by decide
  have only_digits : s.toList.filter (· ≠ '_') = ds.map (fun d => d.digitChar.toUpper) := by
    rw [row, List.filter_eq_self]
    intro c hc
    obtain ⟨d, hd, rfl⟩ := List.mem_map.1 hc
    exact decide_eq_true (no_separator d (digits d hd))
  have is_row : Literal.IsRow 16 s.toList (Nat.ofDigits 16 ds.reverse) := by
    refine ⟨ds, List.length_pos_iff.1 wide, ?_, rfl⟩
    rw [only_digits, List.forall₂_map_left_iff, List.forall₂_same]
    exact fun d hd => ⟨digits d hd, .inr rfl⟩
  have literal : Literal.IsLiteral ("0x" ++ s).toList (Nat.ofDigits 16 ds.reverse : Nat) := by
    rw [String.toList_append]
    exact .intro .absent (.hex (.inl rfl)) is_row small
  refine Literal.read_of_isLiteral ?_
  rwa [Text.trim_of_isTrim word.isTrim]

end IsNumeral

/-! ## What is written -/

theorem digitChar_eq : ∀ d < 16, Text.digitChar d = d.digitChar.toUpper := by decide

/-- The last digits of a number are a row of digits for what it leaves modulo their base. -/
theorem isNumeral_mod (small : base ≤ 16) (positive : 0 < base) (width n : Nat) :
    IsNumeral base width (n % base ^ width) (String.ofList (Text.digits base width n)) := by
  induction width generalizing n with
  | zero => exact ⟨[], rfl, nofun, rfl, Nat.mod_one n⟩
  | succ width ih =>
    have last : n % base < base := Nat.mod_lt n positive
    have digit : IsNumeral base 1 (n % base) (String.ofList [Text.digitChar (n % base)]) := by
      refine ⟨[n % base], rfl, List.forall_mem_singleton.2 last, ?_, (Nat.ofDigits_singleton ..).symm⟩
      rw [String.toList_ofList, digitChar_eq _ (Nat.lt_of_lt_of_le last small)]
      rfl
    have value : n % base ^ (width + 1) = n / base % base ^ width * base ^ 1 + n % base := by
      rw [Nat.pow_succ', Nat.mod_mul, Nat.pow_one, Nat.mul_comm base, Nat.add_comm]
    rw [Text.digits, String.ofList_append, value]
    exact (ih (n / base)).append digit

theorem isNumeral_digits (small : base ≤ 16) (positive : 0 < base) (fits : n < base ^ width) :
    IsNumeral base width n (String.ofList (Text.digits base width n)) := by
  have row := isNumeral_mod small positive width n
  rwa [Nat.mod_eq_of_lt fits] at row

theorem isNumeral_hex (wide : 0 < width) (fits : n < 16 ^ width) : IsNumeral 16 width n (Text.hex width n) := by
  have log : n.log2 / 4 + 1 ≤ width := by
    rcases Nat.eq_zero_or_pos n with rfl | positive
    · exact wide
    · have bits : n.log2 < 4 * width := (Nat.log2_lt (Nat.ne_of_gt positive)).2 (by rwa [Nat.pow_mul])
      omega
  rw [Text.hex, Nat.max_eq_left log]
  exact isNumeral_digits (Nat.le_refl 16) (by decide) fits

end M32
