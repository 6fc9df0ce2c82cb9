/-
  Names in source text.

  A name is a letter or an underscore followed by letters, digits and underscores (`IsName`).  The lexer makes no other
  names (`isName_of_mem_tokens`), and a name is one word that a label may have (`IsName.isWord`, `IsName.isName`).
-/
import M32.Assembly.Statement
import M32.Lang.Token.Lexer
import M32.Proofs.Literal.Decimal

namespace M32.Lang

/-- Whether a text has the form of a name. -/
def IsName (name : String) : Prop := ∃ c cs, name.toList = c :: cs ∧ isWordStart c = true ∧ ∀ d ∈ cs, isWordChar d = true

/-! ## Characters of names -/

theorem isWordChar_of_isWordStart {c : Char} (h : isWordStart c = true) : isWordChar c = true := by
  simp only [isWordStart, isWordChar, Char.isAlphanum, Bool.or_eq_true] at h ⊢
  rcases h with h | h
  · exact .inl h
  · exact .inr (.inl h)

theorem isWordChar_visible {c : Char} (h : isWordChar c = true) : 0x20 < c.toNat ∧ c.toNat < 0x80 := by
  rw [isWordChar, Bool.or_eq_true, beq_iff_eq] at h
  rcases h with rfl | h
  · decide
  · obtain ⟨lo, hi, -⟩ := isAlphanum_toNat h
    omega

namespace IsName

variable {name : String}

theorem isWordChar (h : IsName name) : ∀ c ∈ name.toList, isWordChar c = true := by
  obtain ⟨c, cs, hn, hc, hcs⟩ := h
  intro d hd
  rw [hn] at hd
  rcases List.mem_cons.1 hd with rfl | hd
  · exact isWordChar_of_isWordStart hc
  · exact hcs d hd

theorem isWord (h : IsName name) : Text.IsWord name.toList := by
  refine ⟨?_, fun c hc => ?_⟩
  · obtain ⟨c, cs, hn, -⟩ := h
    rw [hn]
    exact List.cons_ne_nil c cs
  · obtain ⟨lo, hi⟩ := isWordChar_visible (h.isWordChar c hc)
    exact Text.isBlank_of_visible lo hi

theorem isName (h : IsName name) : Assembly.Label.isName name.toList = true := by
  obtain ⟨c, cs, hn, hc, hcs⟩ := h
  rw [hn, Assembly.Label.isName, Bool.and_eq_true, List.all_eq_true]
  constructor
  · simp only [isWordStart, Assembly.Label.isStart, Bool.or_eq_true] at hc ⊢
    rcases hc with hc | hc
    · exact .inl (.inr hc)
    · exact .inl (.inl hc)
  · intro d hd
    have := hcs d hd
    simp only [Lang.isWordChar, Assembly.Label.isPart, Bool.or_eq_true] at this ⊢
    rcases this with hd | hd
    · exact .inl (.inr hd)
    · exact .inl (.inl hd)

end IsName

/-! ## Names of tokens -/

theorem scanWord_ident {c : Char} {cs : List Char} {name : String} (h : (scanWord c cs).kind = .ident name)
    (hc : isWordStart c = true) : IsName name := by
  unfold scanWord at h
  simp only at h
  split at h
  · cases h
  · cases h
    exact ⟨c, cs.takeWhile isWordChar, String.toList_ofList, hc, fun d hd => List.all_eq_true.1 List.all_takeWhile d hd⟩

theorem scanNumber_ne_ident (c : Char) (cs : List Char) (name : String) : (scanNumber c cs).kind ≠ .ident name := by
  unfold scanNumber
  simp only
  split
  · split <;> simp
  · simp

theorem closeChar_ne_ident (shown body : List Char) (value? : Option Char) (cs : List Char) (name : String) :
    (closeChar shown body value? cs).kind ≠ .ident name := by
  unfold closeChar
  simp only
  split
  · split <;> simp
  · simp

theorem scanChar_ne_ident (cs : List Char) (name : String) : (scanChar cs).kind ≠ .ident name := by
  unfold scanChar
  split <;> exact closeChar_ne_ident _ _ _ _ _

theorem scanSingle_ident {c : Char} {cs : List Char} {name : String} (h : (scanSingle c cs).kind = .ident name) :
    IsName name := by
  unfold scanSingle at h
  split at h
  · cases h
  · split at h
    · exact absurd h (scanNumber_ne_ident _ _ _)
    · split at h
      · exact absurd h (scanChar_ne_ident _ _)
      · split at h
        · next hc => exact scanWord_ident h hc
        · cases h

theorem scan_ident {c : Char} {cs : List Char} {name : String} (h : (scan c cs).kind = .ident name) : IsName name := by
  unfold scan at h
  split at h
  · exact scanSingle_ident h
  · split at h
    · cases h
    · split at h
      · cases h
      · exact scanSingle_ident h

theorem isName_of_mem_tokensFrom {file : String} {line col : Nat} {cs : List Char} {t : Token}
    (h : t ∈ tokensFrom file line col cs) {name : String} (hn : t.kind = .ident name) : IsName name := by
  fun_induction tokensFrom file line col cs with
  | case1 => simp at h
  | case2 col c cs blank ih => exact ih h
  | case3 col c cs visible ih =>
    rcases List.mem_cons.1 h with rfl | h
    · exact scan_ident hn
    · exact ih h

/-- The names of a text have the form of names. -/
theorem isName_of_mem_tokens {file : String} {cs : List Char} {t : Token} (h : t ∈ tokens file cs) {name : String}
    (hn : t.kind = .ident name) : IsName name := by
  rw [tokens, List.mem_flatten] at h
  obtain ⟨row, hrow, ht⟩ := h
  obtain ⟨line, hline, rfl⟩ := List.mem_mapIdx.1 hrow
  exact isName_of_mem_tokensFrom ht hn

end M32.Lang
