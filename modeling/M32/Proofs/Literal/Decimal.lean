/-
  Decimal text of numbers, as words and as literals.

  1. Numbers are written in digits, with a minus before those below zero: `toString` gives words
     (`isWord_toString`, `isWord_toString_int`).
  2. Decimal digits are the literal of their value (`Literal.read?_of_digits`), and what starts with a letter is no literal
     (`Literal.read?_eq_none`).
  3. `read?_toString` and `read?_toString_int`: a number whose magnitude a literal may have is read back.
-/
import M32.Literal
import M32.Proofs.Text.Joined

namespace M32

/-! ## Digits -/

theorem Text.isBlank_of_visible {c : Char} (h : 0x20 < c.toNat) (h' : c.toNat < 0x80) : isBlank c = false := by
  unfold isBlank
  simp
  omega

theorem isDigit_toNat {c : Char} (h : c.isDigit = true) : 48 ≤ c.toNat ∧ c.toNat ≤ 57 := by
  simp only [Char.isDigit, Bool.and_eq_true, decide_eq_true_eq, ge_iff_le, UInt32.le_iff_toNat_le] at h
  exact h

theorem isAlpha_toNat {c : Char} (h : c.isAlpha = true) : 65 ≤ c.toNat ∧ c.toNat ≤ 122 := by
  unfold Char.isAlpha Char.isUpper Char.isLower at h
  simp only [Bool.or_eq_true, Bool.and_eq_true, decide_eq_true_eq, UInt32.le_iff_toNat_le, ge_iff_le] at h
  rcases h with ⟨lo, hi⟩ | ⟨lo, hi⟩
  · have lo : 65 ≤ c.toNat := lo
    have hi : c.toNat ≤ 90 := hi
    omega
  · have lo : 97 ≤ c.toNat := lo
    have hi : c.toNat ≤ 122 := hi
    omega

theorem isAlphanum_toNat {c : Char} (h : c.isAlphanum = true) : 48 ≤ c.toNat ∧ c.toNat ≤ 122 ∧ c.toNat ≠ 58 := by
  rw [Char.isAlphanum, Bool.or_eq_true] at h
  rcases h with letter | digit
  · have := isAlpha_toNat letter
    omega
  · have := isDigit_toNat digit
    omega

theorem Text.isBlank_of_isDigit {c : Char} (h : c.isDigit = true) : isBlank c = false := by
  obtain ⟨lo, hi⟩ := isDigit_toNat h
  exact isBlank_of_visible (by omega) (by omega)

theorem digitValue?_digitChar {d : Nat} (h : d < 10) : digitValue? 10 d.digitChar = some d := by
  have hd := Nat.toNat_digitChar_of_lt_ten h
  have low : 48 + d ≤ 57 := by omega
  rw [digitValue?, hd]
  simp [low, h]

theorem isDigit_of_digitValue? {d : Nat} {c : Char} (h : digitValue? 10 c = some d) : c.isDigit = true := by
  simp only [Char.isDigit, Bool.and_eq_true, decide_eq_true_eq, UInt32.le_iff_toNat_le, ge_iff_le]
  show 48 ≤ c.toNat ∧ c.toNat ≤ 57
  unfold digitValue? at h
  grind

theorem digitsFrom?_ten {n v : Nat} {cs : List Char} (h : digitsFrom? 10 n cs = some v) : ∀ c ∈ cs, c.isDigit = true := by
  induction cs generalizing n with
  | nil => nofun
  | cons c cs ih =>
    rw [digitsFrom?, Option.bind_eq_some_iff] at h
    obtain ⟨d, hd, rest⟩ := h
    exact List.forall_mem_cons.2 ⟨isDigit_of_digitValue? hd, ih rest⟩

/-- A row of decimal digits that has a value is not empty and has no other characters. -/
theorem digitsValue?_ten {v : Nat} {cs : List Char} (h : digitsValue? 10 cs = some v) : cs ≠ [] ∧ ∀ c ∈ cs, c.isDigit = true := by
  rw [digitsValue?] at h
  split at h
  · cases h
  · next some_digits =>
    refine ⟨?_, digitsFrom?_ten h⟩
    rintro rfl
    exact some_digits rfl

theorem digitsFrom?_append (base start : Nat) (cs ds : List Char) :
    digitsFrom? base start (cs ++ ds) = (digitsFrom? base start cs).bind fun n => digitsFrom? base n ds := by
  induction cs generalizing start with
  | nil => rfl
  | cons c cs ih =>
    rw [List.cons_append, digitsFrom?, digitsFrom?]
    cases digitValue? base c with
    | none => rfl
    | some v => exact ih _

theorem digitsFrom?_toDigits (n : Nat) : digitsFrom? 10 0 (Nat.toDigits 10 n) = some n := by
  induction n using Nat.strongRecOn with
  | ind n ih =>
    by_cases small : n < 10
    · rw [Nat.toDigits_of_lt_base small, digitsFrom?, digitValue?_digitChar small]
      simp [digitsFrom?]
    · -- the last digit comes off the end
      have last : n % 10 < 10 := Nat.mod_lt _ (by omega)
      rw [Nat.toDigits_of_base_le (by omega) (by omega), digitsFrom?_append, ih (n / 10) (by omega), Option.bind_some,
        digitsFrom?, digitValue?_digitChar last, Option.bind_some, digitsFrom?]
      congr 1
      omega

theorem toList_toString (n : Nat) : (toString n).toList = Nat.toDigits 10 n := by
  rw [Nat.toString_eq_repr, Nat.toList_repr]

theorem isDigit_of_mem_toDigits {n : Nat} {c : Char} (h : c ∈ Nat.toDigits 10 n) : c.isDigit = true :=
  Nat.isDigit_of_mem_toDigits (by omega) (by omega) h

theorem isWord_toDigits (n : Nat) : Text.IsWord (Nat.toDigits 10 n) :=
  ⟨Nat.toDigits_ne_nil, fun _ hc => Text.isBlank_of_isDigit (isDigit_of_mem_toDigits hc)⟩

theorem isWord_toString (n : Nat) : Text.IsWord (toString n).toList := by
  rw [toList_toString]
  exact isWord_toDigits n

/-- A number below zero is written as a minus and digits, any other as digits. -/
theorem toList_toString_int (v : Int) :
    (toString v).toList = if v < 0 then '-' :: Nat.toDigits 10 v.natAbs else Nat.toDigits 10 v.natAbs := by
  cases v with
  | ofNat n =>
    rw [if_neg (by simp)]
    exact toList_toString n
  | negSucc n =>
    rw [if_pos (Int.negSucc_lt_zero n)]
    show ("-" ++ (n + 1).repr).toList = _
    rw [String.toList_append, Nat.toList_repr]
    rfl

theorem isWord_toString_int (v : Int) : Text.IsWord (toString v).toList := by
  rw [toList_toString_int]
  split
  · refine ⟨List.cons_ne_nil _ _, ?_⟩
    intro c hc
    rcases List.mem_cons.1 hc with rfl | hc
    · decide
    · exact (isWord_toDigits _).2 c hc
  · exact isWord_toDigits _

/-! ## Literals -/

namespace Literal

theorem splitBase_of_isDigit {cs : List Char} (h : ∀ c ∈ cs, c.isDigit = true) : splitBase cs = (10, cs) := by
  have letter {a b : Char} {ds : List Char} (hb : b.isDigit = false) : a :: b :: ds ≠ cs := by
    rintro rfl
    rw [h b (by simp)] at hb
    cases hb
  unfold splitBase
  split
  · exact absurd rfl (letter (by decide))
  · exact absurd rfl (letter (by decide))
  · exact absurd rfl (letter (by decide))
  · exact absurd rfl (letter (by decide))
  · exact absurd rfl (letter (by decide))
  · exact absurd rfl (letter (by decide))
  · rfl

theorem splitSign_of_isDigit {cs : List Char} (h : ∀ c ∈ cs, c.isDigit = true) : splitSign cs = (false, cs) := by
  unfold splitSign
  split
  · exact absurd (h '-' List.mem_cons_self) (by decide)
  · exact absurd (h '+' List.mem_cons_self) (by decide)
  · rfl

/-- Decimal digits are the literal of their value, if it is no larger than a literal may be. -/
theorem read?_of_digits {cs : List Char} {n : Nat} (h : digitsValue? 10 cs = some n) :
    read? cs = if n ≤ maxMagnitude then some (n : Int) else none := by
  obtain ⟨some_digits, digits⟩ := digitsValue?_ten h
  have word : Text.IsWord cs := ⟨some_digits, fun c hc => Text.isBlank_of_isDigit (digits c hc)⟩
  have plain : cs.filter (· ≠ '_') = cs := by
    refine List.filter_eq_self.2 fun c hc => decide_eq_true ?_
    rintro rfl
    exact absurd (digits '_' hc) (by decide)
  rw [read?, Text.trim_of_isTrim word.isTrim, splitSign_of_isDigit digits]
  simp only [splitBase_of_isDigit digits, magnitude?, plain, h, Option.filter_some, decide_eq_true_eq, Bool.false_eq_true, if_false]
  split <;> rfl

/-- A word that starts with no digit, sign or separator is no literal. -/
theorem read?_eq_none {c : Char} {cs : List Char} (word : Text.IsWord (c :: cs)) (digit : c.isDigit = false)
    (other : c ∉ ['-', '+', '_']) : read? (c :: cs) = none := by
  obtain ⟨minus, plus, line⟩ : c ≠ '-' ∧ c ≠ '+' ∧ c ≠ '_' := by simpa using other
  have unsigned : splitSign (c :: cs) = (false, c :: cs) := by
    unfold splitSign
    split <;> simp_all
  have unmarked : splitBase (c :: cs) = (10, c :: cs) := by
    have zero : c ≠ '0' := by
      rintro rfl
      exact absurd digit (by decide)
    unfold splitBase
    split <;> simp_all
  have no_digit : digitValue? 10 c = none := by
    cases hd : digitValue? 10 c with
    | none => rfl
    | some d =>
      rw [isDigit_of_digitValue? hd] at digit
      cases digit
  have no_value : magnitude? 10 (c :: cs) = none := by
    simp [magnitude?, line, digitsValue?, digitsFrom?, no_digit]
  rw [read?, Text.trim_of_isTrim word.isTrim, unsigned]
  simp only [unmarked, no_value, Option.map_none]

theorem magnitude?_toDigits {n : Nat} (h : n ≤ maxMagnitude) : magnitude? 10 (Nat.toDigits 10 n) = some n := by
  have plain : (Nat.toDigits 10 n).filter (· ≠ '_') = Nat.toDigits 10 n := by
    rw [List.filter_eq_self]
    intro c hc
    have hd := isDigit_of_mem_toDigits hc
    have hne : c ≠ '_' := by
      rintro rfl
      exact absurd hd (by decide)
    exact decide_eq_true hne
  have some_digits : (Nat.toDigits 10 n).isEmpty = false := List.isEmpty_eq_false_iff.2 Nat.toDigits_ne_nil
  rw [magnitude?, plain, digitsValue?, some_digits, digitsFrom?_toDigits]
  simp [Option.filter, h]

theorem read?_toString_int {v : Int} (h : v.natAbs ≤ maxMagnitude) : read? (toString v).toList = some v := by
  have digits : ∀ c ∈ Nat.toDigits 10 v.natAbs, c.isDigit = true := fun c hc => isDigit_of_mem_toDigits hc
  rw [read?, Text.trim_of_isTrim (isWord_toString_int v).isTrim, toList_toString_int]
  by_cases neg : v < 0
  · rw [if_pos neg]
    simp only [splitSign, splitBase_of_isDigit digits, magnitude?_toDigits h, Option.map_some, Option.some.injEq, if_true]
    omega
  · rw [if_neg neg, splitSign_of_isDigit digits]
    simp only [splitBase_of_isDigit digits, magnitude?_toDigits h, Option.map_some, Option.some.injEq,
      Bool.false_eq_true, if_false]
    omega

theorem read?_toString {n : Nat} (h : n ≤ maxMagnitude) : read? (toString n).toList = some (n : Int) :=
  read?_toString_int (v := (n : Int)) (by simpa using h)

end Literal

end M32
