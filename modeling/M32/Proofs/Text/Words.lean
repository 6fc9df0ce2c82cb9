/-
  The words of a text, wherever its blanks stand.

  1. A blank ends a word (`words_append_blank`), so a text without words is blank (`words_eq_nil_iff`), and blanks around a text
     make no difference to its words (`words_trim`).
  2. A text between its outer blanks starts with its first word (`trim_of_words`).  With one word it is that word.
-/
import M32.Proofs.Text.Joined
import Mathlib.Data.List.DropRight

namespace M32.Text

variable {w cs : List Char} {b : Char}

/-! ## Blanks between words -/

theorem words_cons_blank (hb : isBlank b = true) (cs : List Char) : words (b :: cs) = words cs := by
  cases cs <;> simp only [words, hb, if_true]

theorem words_cons_ne_nil {c : Char} (hc : isBlank c = false) (cs : List Char) : words (c :: cs) ≠ [] := by
  cases cs with
  | nil => simp [words, hc]
  | cons d cs =>
    rw [words, if_neg (by simp [hc])]
    split
    · exact List.cons_ne_nil _ _
    · split <;> exact List.cons_ne_nil _ _

/-- A blank ends a word. -/
theorem words_append_blank (hb : isBlank b = true) (xs ys : List Char) : words (xs ++ b :: ys) = words xs ++ words ys := by
  induction xs with
  | nil => exact words_cons_blank hb ys
  | cons c xs ih =>
    cases hc : isBlank c with
    | true => rw [List.cons_append, words_cons_blank hc, words_cons_blank hc, ih]
    | false =>
      cases xs with
      | nil => simp [words, hc, hb, words_cons_blank hb]
      | cons d xs =>
        simp only [List.cons_append] at ih ⊢
        rw [words, words, ih]
        cases hd : isBlank d with
        | true => simp [hc]
        | false =>
          obtain ⟨v, vs, hv⟩ := List.exists_cons_of_ne_nil (words_cons_ne_nil hd xs)
          simp [hc, hv]

theorem words_eq_nil_iff : words cs = [] ↔ ∀ c ∈ cs, isBlank c = true := by
  induction cs with
  | nil => simp [words]
  | cons c cs ih =>
    cases hc : isBlank c with
    | true => rw [words_cons_blank hc, ih, List.forall_mem_cons, hc]; simp
    | false => simp [words_cons_ne_nil hc, hc]

theorem words_append_blanks {bs : List Char} (hb : ∀ c ∈ bs, isBlank c = true) (cs : List Char) : words (cs ++ bs) = words cs := by
  cases bs with
  | nil => rw [List.append_nil]
  | cons b bs =>
    rw [words_append_blank (hb b List.mem_cons_self), words_eq_nil_iff.2 fun c hc => hb c (List.mem_cons_of_mem _ hc),
      List.append_nil]

theorem words_blanks_append {bs : List Char} (hb : ∀ c ∈ bs, isBlank c = true) (cs : List Char) : words (bs ++ cs) = words cs := by
  induction bs with
  | nil => rfl
  | cons b bs ih =>
    rw [List.cons_append, words_cons_blank (hb b List.mem_cons_self), ih fun c hc => hb c (List.mem_cons_of_mem _ hc)]

/-! ## Blanks around words -/

/-- A text is what is left of it between blanks. -/
theorem eq_trim (cs : List Char) : ∃ before after : List Char, cs = before ++ trim cs ++ after ∧
    (∀ c ∈ before, isBlank c = true) ∧ ∀ c ∈ after, isBlank c = true := by
  refine ⟨cs.takeWhile isBlank, ((trimStart cs).reverse.takeWhile isBlank).reverse, ?_, ?_, ?_⟩
  · rw [List.append_assoc, trim, trimEnd, ← List.reverse_append, List.takeWhile_append_dropWhile, List.reverse_reverse, trimStart,
      List.takeWhile_append_dropWhile]
  · exact fun c hc => List.mem_takeWhile_imp hc
  · exact fun c hc => List.mem_takeWhile_imp (List.mem_reverse.1 hc)

theorem words_trim (cs : List Char) : words (trim cs) = words cs := by
  obtain ⟨before, after, whole, hb, ha⟩ := eq_trim cs
  conv => rhs; rw [whole]
  rw [words_append_blanks ha, words_blanks_append hb]

theorem isTrim_trim (cs : List Char) : IsTrim (trim cs) := by
  constructor
  · intro c hc
    have start : trim cs <+: trimStart cs := List.rdropWhile_prefix isBlank _
    -- what is left is not empty, so it starts with the same character before its end is trimmed
    obtain ⟨rest, hr⟩ := List.head?_eq_some_iff.1 hc
    obtain ⟨more, hm⟩ := start
    rw [hr, List.cons_append] at hm
    have left : cs.dropWhile isBlank ≠ [] := by
      intro he
      rw [trimStart, he] at hm
      cases hm
    have first := List.head_dropWhile_not isBlank left
    have same : (cs.dropWhile isBlank).head left = c := by
      simp only [show cs.dropWhile isBlank = c :: (rest ++ more) from hm.symm, List.head_cons]
    rwa [same] at first
  · intro c hc
    obtain ⟨left, rfl⟩ := List.mem_getLast?_eq_getLast hc
    exact Bool.eq_false_iff.2 (List.rdropWhile_last_not isBlank (trimStart cs) left)

theorem trim_trim (cs : List Char) : trim (trim cs) = trim cs := trim_of_isTrim (isTrim_trim cs)

/-- Between its outer blanks a text starts with its first word, and ends with it if there is no other. -/
theorem trim_of_words {ws : List (List Char)} (h : words cs = w :: ws) : ∃ rest, trim cs = w ++ rest ∧ (ws = [] → rest = []) := by
  have ends := isTrim_trim cs
  have same := words_trim cs
  rw [h] at same
  generalize trim cs = t at ends same
  have whole : t.takeWhile (!isBlank ·) ++ t.dropWhile (!isBlank ·) = t := List.takeWhile_append_dropWhile
  have visible : ∀ c ∈ t.takeWhile (!isBlank ·), isBlank c = false := fun c hc => by
    simpa using List.mem_takeWhile_imp hc
  cases hrest : t.dropWhile (!isBlank ·) with
  | nil =>
    rw [hrest, List.append_nil] at whole
    rw [whole] at visible
    have word : IsWord t := by
      refine ⟨?_, visible⟩
      rintro rfl
      cases same
    rw [words_word word] at same
    cases same
    exact ⟨[], (List.append_nil _).symm, fun _ => rfl⟩
  | cons b rest =>
    have blank : isBlank b = true := by
      have first := List.head_dropWhile_not (!isBlank ·) (l := t) (by rw [hrest]; exact List.cons_ne_nil _ _)
      simpa [hrest] using first
    rw [hrest] at whole
    have word : IsWord (t.takeWhile (!isBlank ·)) := by
      refine ⟨fun none_visible => ?_, visible⟩
      rw [none_visible, List.nil_append] at whole
      rw [← whole] at ends
      have := ends.1 b rfl
      rw [blank] at this
      cases this
    rw [← whole, words_append_blank blank, words_word word] at same
    cases same
    refine ⟨b :: rest, whole.symm, fun only => ?_⟩
    -- were there no other word, the text would end with a blank
    have blanks : ∀ c ∈ b :: rest, isBlank c = true := List.forall_mem_cons.2 ⟨blank, words_eq_nil_iff.1 only⟩
    have last := ends.2 ((b :: rest).getLast (List.cons_ne_nil _ _)) (by
      rw [← whole, List.getLast?_append_of_ne_nil _ (List.cons_ne_nil _ _)]
      exact List.getLast?_eq_some_getLast _)
    rw [blanks _ (List.getLast_mem _)] at last
    cases last

end M32.Text
