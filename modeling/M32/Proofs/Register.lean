/-
  What texts mean registers.

  1. A register is meant by one of its names in any ASCII case, or by its number in digits, which may stand after a mark
     (`Reg.IsCalled`).  Exactly such words are read (`Reg.read?_eq_some_iff`).
  2. A special register is meant by its name in any ASCII case, or by a literal of its number (`SReg.read?_eq_some_iff`).
  3. No name is a literal, and a register that is called by a literal has its value for its number: a word never means a
     register and the number of another one (`Reg.IsCalled.value`, `SReg.IsCalled.literal`).
-/
import M32.Proofs.Literal.Decimal
import M32.Register

namespace M32

variable {c : Char} {cs : List Char}

/-! ## ASCII case -/

theorem toLower_of_not_isUpper (h : c.isUpper = false) : c.toLower = c := by
  unfold Char.isUpper at h
  exact dif_neg (of_decide_eq_false h)

theorem isUpper_of_isDigit (h : c.isDigit = true) : c.isUpper = false := by
  have digit := isDigit_toNat h
  have code : c.val.toNat = c.toNat := rfl
  unfold Char.isUpper
  simp only [decide_eq_false_iff_not, UInt32.le_iff_toNat_le, ge_iff_le]
  show ¬ (65 ≤ c.val.toNat ∧ c.val.toNat ≤ 90)
  omega

/-- A character whose small form is a small letter is a letter. -/
theorem isAlpha_of_toLower (h : c.toLower.isLower = true) : c.isAlpha = true := by
  unfold Char.isAlpha
  cases upper : c.isUpper with
  | true => rw [Bool.true_or]
  | false =>
    rw [toLower_of_not_isUpper upper] at h
    rw [h, Bool.or_true]

/-- A word whose small form starts with a letter is no literal. -/
theorem Literal.read?_of_toLower (word : Text.IsWord cs) (letter : (cs.map Char.toLower).head?.any Char.isLower = true) :
    read? cs = none := by
  cases cs with
  | nil => cases letter
  | cons c cs =>
    have lower : c.toLower.isLower = true := letter
    have code := isAlpha_toNat (isAlpha_of_toLower lower)
    refine read?_eq_none word ?_ ?_
    · cases digit : c.isDigit with
      | false => rfl
      | true =>
        have := isDigit_toNat digit
        omega
    · intro other
      simp only [List.mem_cons, List.not_mem_nil, or_false] at other
      rcases other with rfl | rfl | rfl
      · exact absurd lower (by decide)
      · exact absurd lower (by decide)
      · exact absurd lower (by decide)

namespace Reg

/-! ## General registers -/

/-- The names that are read, each in its small form. -/
def called : List (String × Reg) := names ++ [("sig", sig)]

/-- What may stand before the number of a register. -/
def marks : List (List Char) := [[], ['$'], ['r']]

/-- Whether a word means a register: by a name in any ASCII case, or by its number in decimal digits. -/
def IsCalled (r : Reg) (cs : List Char) : Prop :=
  (∃ name, (name, r) ∈ called ∧ cs.map Char.toLower = name.toList) ∨
  ∃ mark ∈ marks, ∃ ds, cs = mark ++ ds ∧ digitsValue? 10 ds = some r.num.val

/-- Digits after a mark, or without one. -/
theorem dropMark_eq_iff {n : Nat} :
    digitsValue? 10 (dropMark cs) = some n ↔ ∃ mark ∈ marks, ∃ ds, cs = mark ++ ds ∧ digitsValue? 10 ds = some n := by
  constructor
  · intro h
    unfold dropMark at h
    split at h
    · exact ⟨['$'], by decide, _, rfl, h⟩
    · exact ⟨['r'], by decide, _, rfl, h⟩
    · exact ⟨[], by decide, _, rfl, h⟩
  · rintro ⟨mark, hm, ds, rfl, h⟩
    have digits := (digitsValue?_ten h).2
    have plain : dropMark ds = ds := by
      unfold dropMark
      split
      · exact absurd (digits '$' List.mem_cons_self) (by decide)
      · exact absurd (digits 'r' List.mem_cons_self) (by decide)
      · rfl
    simp only [marks, List.mem_cons, List.not_mem_nil, or_false] at hm
    rcases hm with rfl | rfl | rfl
    · rwa [List.nil_append, plain]
    · exact h
    · exact h

theorem read?_eq (word : Text.IsWord cs) :
    read? cs = (called.lookup (String.ofList (cs.map Char.toLower))).or ((digitsValue? 10 (dropMark cs)).bind ofNat?) := by
  have digits : (if (dropMark cs).all Char.isDigit then (digitsValue? 10 (dropMark cs)).bind ofNat? else none) =
      (digitsValue? 10 (dropMark cs)).bind ofNat? := by
    split
    · rfl
    · next other =>
      cases h : digitsValue? 10 (dropMark cs) with
      | none => rfl
      | some n => exact absurd (List.all_eq_true.2 (digitsValue?_ten h).2) other
  rw [read?, Text.trim_of_isTrim word.isTrim, called, List.lookup_append]
  simp only [digits]
  generalize String.ofList (cs.map Char.toLower) = lower
  cases names.lookup lower with
  | some r => rfl
  | none =>
    by_cases h : lower = "sig"
    · simp [h]
    · rw [if_neg h, List.lookup_cons, beq_eq_false_iff_ne.2 h]
      rfl

/-- No name is a number. -/
theorem numbered_of_called : ∀ e ∈ called, digitsValue? 10 (dropMark e.1.toList) = none := by decide

theorem lookup_of_called : ∀ e ∈ called, called.lookup e.1 = some e.2 := by decide

/-- Marks and digits have no other case. -/
theorem toLower_of_numbered {n : Nat} (h : digitsValue? 10 (dropMark cs) = some n) : cs.map Char.toLower = cs := by
  obtain ⟨mark, hm, ds, rfl, hd⟩ := dropMark_eq_iff.1 h
  have digits : ∀ c ∈ ds, c.toLower = c := fun c hc => toLower_of_not_isUpper (isUpper_of_isDigit ((digitsValue?_ten hd).2 c hc))
  have small : mark.map Char.toLower = mark := (by decide : ∀ mark ∈ marks, mark.map Char.toLower = mark) mark hm
  rw [List.map_append, small, (List.map_congr_left digits).trans (List.map_id' ds)]

/-- Reading accepts the words that mean a register, and no others. -/
theorem read?_eq_some_iff (word : Text.IsWord cs) {r : Reg} : read? cs = some r ↔ r.IsCalled cs := by
  have named : called.lookup (String.ofList (cs.map Char.toLower)) = some r ↔
      ∃ name, (name, r) ∈ called ∧ cs.map Char.toLower = name.toList := by
    constructor
    · intro h
      obtain ⟨before, after, whole, -⟩ := List.lookup_eq_some_iff.1 h
      refine ⟨String.ofList (cs.map Char.toLower), ?_, String.toList_ofList.symm⟩
      rw [whole]
      simp
    · rintro ⟨name, hn, lower⟩
      rw [lower, String.ofList_toList]
      exact lookup_of_called _ hn
  have numbered : (digitsValue? 10 (dropMark cs)).bind ofNat? = some r ↔
      ∃ mark ∈ marks, ∃ ds, cs = mark ++ ds ∧ digitsValue? 10 ds = some r.num.val := by
    rw [← dropMark_eq_iff, Option.bind_eq_some_iff]
    simp only [ofNat?_eq_some_iff, exists_eq_right']
  rw [read?_eq word, Option.or_eq_some_iff, named, numbered, IsCalled]
  constructor
  · rintro (h | ⟨-, h⟩)
    · exact .inl h
    · exact .inr h
  · rintro (h | h)
    · exact .inl h
    · refine .inr ⟨?_, h⟩
      -- a word that is a number is no name, for marks and digits have one case only
      have value := dropMark_eq_iff.2 h
      refine List.lookup_eq_none_iff.2 fun e he => ?_
      rw [toLower_of_numbered value, bne_iff_ne]
      intro same
      have no_value := numbered_of_called e he
      rw [← same, String.toList_ofList, value] at no_value
      cases no_value

/-- A register called by a literal has its value for its number. -/
theorem IsCalled.value {r : Reg} {v : Int} (word : Text.IsWord cs) (h : r.IsCalled cs) (literal : Literal.read? cs = some v) :
    v = r.num.val := by
  rcases h with ⟨name, hn, lower⟩ | ⟨mark, hm, ds, rfl, hd⟩
  · have letter : ∀ e ∈ called, e.1.toList.head?.any Char.isLower = true := by decide
    rw [Literal.read?_of_toLower word (lower ▸ letter _ hn)] at literal
    cases literal
  · simp only [marks, List.mem_cons, List.not_mem_nil, or_false] at hm
    rcases hm with rfl | rfl | rfl
    · rw [List.nil_append, Literal.read?_of_digits hd] at literal
      have small := r.num_lt
      rw [if_pos (by simp only [Literal.maxMagnitude]; omega)] at literal
      exact (Option.some.inj literal).symm
    · cases (Literal.read?_eq_none word (by decide) (by decide)).symm.trans literal
    · cases (Literal.read?_eq_none word (by decide) (by decide)).symm.trans literal

end Reg

namespace SReg

/-! ## Special registers -/

/-- Every number below 8 is that of a special register. -/
theorem exists_num (n : Fin 8) : ∃ s : SReg, s.num = n := by
  have nth : ∀ n : Fin 8, all[n].num = n := by decide
  exact ⟨all[n], nth n⟩

/-- Whether a word is the name of a special register, in any ASCII case. -/
def IsCalled (s : SReg) (cs : List Char) : Prop := cs.map Char.toLower = s.text.toList

theorem IsCalled.literal {s : SReg} (word : Text.IsWord cs) (h : s.IsCalled cs) : Literal.read? cs = none := by
  refine Literal.read?_of_toLower word ?_
  rw [h]
  cases s <;> decide

/-- Reading accepts the names of special registers and the literals of their numbers, and nothing else. -/
theorem read?_eq_some_iff (word : Text.IsWord cs) {s : SReg} :
    read? cs = some s ↔ s.IsCalled cs ∨ Literal.read? cs = some (s.num.val : Int) := by
  have named {s : SReg} : all.find? (·.text = String.ofList (cs.map Char.toLower)) = some s ↔ s.IsCalled cs := by
    constructor
    · intro h
      have same : s.text = String.ofList (cs.map Char.toLower) := by simpa using List.find?_some h
      rw [IsCalled, same, String.toList_ofList]
    · intro h
      rw [h, String.ofList_toList]
      cases s <;> decide
  have numbered : ((Literal.read? cs).bind fun v => if 0 ≤ v then ofNat? v.toNat else none) = some s ↔
      Literal.read? cs = some (s.num.val : Int) := by
    cases Literal.read? cs with
    | none => simp
    | some v =>
      simp only [Option.bind_some, Option.some.injEq]
      constructor
      · intro h
        split at h
        · have := num_of_ofNat? h
          omega
        · cases h
      · rintro rfl
        rw [if_pos (Int.natCast_nonneg _), Int.toNat_natCast, ofNat?_num]
  rw [read?, Text.trim_of_isTrim word.isTrim]
  cases found : all.find? (·.text = String.ofList (cs.map Char.toLower)) with
  | some t =>
    have called := named.1 found
    simp only [called.literal word, reduceCtorEq, or_false, ← named, found]
  | none =>
    have other : ¬ s.IsCalled cs := fun h => by
      rw [named.2 h] at found
      cases found
    simp only [numbered, other, false_or]

end SReg

end M32
