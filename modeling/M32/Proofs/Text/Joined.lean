/-
  Text that is put together, taken apart again.

  1. `IsWord` texts are not empty and hold no blank.  A text of words with a space between any two has these words
     (`words_join`).
  2. `trim` leaves a text alone that has no blank at either end, and drops any blanks before it (`trim_indent`).
  3. What is cut at a separator is what stood before and after it.
  4. Texts that each end with a line feed are the lines of the whole (`lines_terminated`).
-/
import M32.Text.Columns
import M32.Text.Cut
import M32.Text.Blank

namespace M32.Text

variable {w p cs : List Char}

/-! ## Words -/

/-- A text without blanks, at least one character long. -/
def IsWord (w : List Char) : Prop := w ≠ [] ∧ ∀ c ∈ w, isBlank c = false

instance : Decidable (IsWord w) := @instDecidableAnd _ _ _ (List.decidableBAll _ w)

theorem words_word (h : IsWord w) : words w = [w] := by
  obtain ⟨hne, hb⟩ := h
  induction w with
  | nil => exact absurd rfl hne
  | cons c w ih =>
    have hc : isBlank c = false := hb c List.mem_cons_self
    cases w with
    | nil => rw [words, hc]; rfl
    | cons d w =>
      have hd : isBlank d = false := hb d (List.mem_cons_of_mem _ List.mem_cons_self)
      have rest := ih (List.cons_ne_nil d w) fun c hc => hb c (List.mem_cons_of_mem _ hc)
      rw [words, rest, hc, hd]; rfl

/-- A word before a space is the first word of the text. -/
theorem words_space (h : IsWord w) (cs : List Char) : words (w ++ ' ' :: cs) = w :: words cs := by
  have space : words (' ' :: cs) = words cs := by cases cs <;> rfl
  obtain ⟨hne, hb⟩ := h
  induction w with
  | nil => exact absurd rfl hne
  | cons c w ih =>
    have hc : isBlank c = false := hb c List.mem_cons_self
    cases w with
    | nil =>
      show words (c :: ' ' :: cs) = _
      rw [words, hc, space]; rfl
    | cons d w =>
      have hd : isBlank d = false := hb d (List.mem_cons_of_mem _ List.mem_cons_self)
      have rest := ih (List.cons_ne_nil d w) fun c hc => hb c (List.mem_cons_of_mem _ hc)
      rw [List.cons_append] at rest
      show words (c :: d :: (w ++ ' ' :: cs)) = _
      rw [words, rest, hc, hd]; rfl

theorem toList_join_cons (a b : String) (ws : List String) :
    (join " " (a :: b :: ws)).toList = a.toList ++ ' ' :: (join " " (b :: ws)).toList := by
  rw [join, String.intercalate_cons_cons, String.toList_append, String.toList_append, List.append_assoc]; rfl

theorem words_join {ws : List String} (h : ∀ w ∈ ws, IsWord w.toList) : words (join " " ws).toList = ws.map String.toList := by
  induction ws with
  | nil => rfl
  | cons a ws ih =>
    have ha : IsWord a.toList := h a List.mem_cons_self
    have rest := ih fun w hw => h w (List.mem_cons_of_mem _ hw)
    cases ws with
    | nil => rw [join, String.intercalate_singleton, words_word ha]; rfl
    | cons b ws => rw [toList_join_cons, words_space ha, rest]; rfl

/-! ## Ends -/

/-- A text with no blank at either end. -/
def IsTrim (cs : List Char) : Prop := (∀ c ∈ cs.head?, isBlank c = false) ∧ ∀ c ∈ cs.getLast?, isBlank c = false

theorem dropWhile_of_head (h : ∀ c ∈ cs.head?, isBlank c = false) : cs.dropWhile isBlank = cs := by
  cases cs with
  | nil => rfl
  | cons c cs => rw [List.dropWhile_cons_of_neg]; simp [h c rfl]

theorem trim_of_isTrim (h : IsTrim cs) : trim cs = cs := by
  rw [trim, trimStart, dropWhile_of_head h.1, trimEnd, dropWhile_of_head, List.reverse_reverse]
  rw [List.head?_reverse]
  exact h.2

theorem trim_indent {blanks : List Char} (hb : ∀ c ∈ blanks, isBlank c = true) (cs : List Char) :
    trim (blanks ++ cs) = trim cs := by
  have start : trimStart (blanks ++ cs) = trimStart cs := List.dropWhile_append_of_pos hb
  rw [trim, start]; rfl

theorem trim_space (cs : List Char) : trim (' ' :: cs) = trim cs := by
  have space : ∀ c ∈ [' '], isBlank c = true := by
    intro c hc
    rw [List.mem_singleton.1 hc]; rfl
  exact trim_indent space cs

/-- A blank after a text is dropped. -/
theorem trim_concat {b : Char} (h : IsTrim cs) (h0 : cs ≠ []) (hb : isBlank b = true) : trim (cs ++ [b]) = cs := by
  obtain ⟨x, rest, rfl⟩ := List.exists_cons_of_ne_nil h0
  have start : trimStart (x :: rest ++ [b]) = x :: rest ++ [b] := by
    rw [trimStart, dropWhile_of_head]
    exact fun c hc => h.1 c hc
  rw [trim, start, trimEnd, List.reverse_append, List.reverse_singleton, List.singleton_append,
    List.dropWhile_cons_of_pos hb, dropWhile_of_head, List.reverse_reverse]
  rw [List.head?_reverse]
  exact h.2

theorem IsWord.isTrim (h : IsWord w) : IsTrim w :=
  ⟨fun c hc => h.2 c (List.mem_of_mem_head? hc), fun c hc => h.2 c (List.mem_of_mem_getLast? hc)⟩

theorem IsTrim.append {a b : List Char} (ha : IsTrim a) (hb : IsTrim b) (ha0 : a ≠ []) (hb0 : b ≠ []) (mid : List Char) :
    IsTrim (a ++ mid ++ b) := by
  refine ⟨?_, ?_⟩
  · obtain ⟨x, a, rfl⟩ := List.exists_cons_of_ne_nil ha0
    exact ha.1
  · have hy := List.getLast?_eq_some_getLast hb0
    rw [List.getLast?_append, hy]
    rw [IsTrim, hy] at hb
    exact hb.2

theorem join_isTrim {ws : List String} (h : ∀ w ∈ ws, IsWord w.toList) : IsTrim (join " " ws).toList := by
  cases ws with
  | nil => exact ⟨fun c hc => by simp [join] at hc, fun c hc => by simp [join] at hc⟩
  | cons a ws =>
    induction ws generalizing a with
    | nil =>
      rw [join, String.intercalate_singleton]
      exact (h a List.mem_cons_self).isTrim
    | cons b ws ih =>
      have ha : IsWord a.toList := h a List.mem_cons_self
      have hb : IsWord b.toList := h b (List.mem_cons_of_mem _ List.mem_cons_self)
      have rest := ih b fun w hw => h w (List.mem_cons_of_mem _ hw)
      have rest0 : (join " " (b :: ws)).toList ≠ [] := by
        intro he
        have hw := words_join fun w hw => h w (List.mem_cons_of_mem _ hw)
        rw [he] at hw
        simp [words] at hw
      rw [toList_join_cons, List.append_cons]
      exact ha.isTrim.append rest ha.1 rest0 [' ']

/-! ## Cuts -/

section Cuts

variable {sep : Char} {a : List Char}

theorem cutFirst?_append (h : sep ∉ a) (b : List Char) : cutFirst? sep (a ++ sep :: b) = some (a, b) := by
  induction a with
  | nil => simp [cutFirst?]
  | cons c a ih =>
    have hc : c ≠ sep := fun e => h (e ▸ List.mem_cons_self)
    have rest := ih fun hs => h (List.mem_cons_of_mem _ hs)
    rw [List.cons_append, cutFirst?, if_neg hc, rest]; rfl

theorem cutFirst?_eq_none (h : sep ∉ a) : cutFirst? sep a = none := by
  induction a with
  | nil => rfl
  | cons c a ih =>
    have hc : c ≠ sep := fun e => h (e ▸ List.mem_cons_self)
    have rest := ih fun hs => h (List.mem_cons_of_mem _ hs)
    rw [cutFirst?, if_neg hc, rest]; rfl

theorem cutLast?_append {b : List Char} (h : sep ∉ b) (a : List Char) : cutLast? sep (a ++ sep :: b) = some (a, b) := by
  have turned : (a ++ sep :: b).reverse = b.reverse ++ sep :: a.reverse := by simp
  have hb : sep ∉ b.reverse := by simpa using h
  rw [cutLast?, turned, cutFirst?_append hb]
  simp

theorem fieldsAt_append (h : sep ∉ a) (b : List Char) : fieldsAt sep (a ++ sep :: b) = a :: fieldsAt sep b := by
  induction a with
  | nil => simp [fieldsAt]
  | cons c a ih =>
    have hc : c ≠ sep := fun e => h (e ▸ List.mem_cons_self)
    have rest := ih fun hs => h (List.mem_cons_of_mem _ hs)
    rw [List.cons_append, fieldsAt, if_neg hc, rest]; rfl

theorem fieldsAt_eq_singleton (h : sep ∉ a) : fieldsAt sep a = [a] := by
  induction a with
  | nil => rfl
  | cons c a ih =>
    have hc : c ≠ sep := fun e => h (e ▸ List.mem_cons_self)
    have rest := ih fun hs => h (List.mem_cons_of_mem _ hs)
    rw [fieldsAt, if_neg hc, rest]; rfl

theorem dropEnd?_append (c : Char) (cs : List Char) : dropEnd? c (cs ++ [c]) = some cs := by
  simp [dropEnd?]

theorem dropPrefix?_append (start cs : List Char) : dropPrefix? start (start ++ cs) = some cs := by
  have starts : start.isPrefixOf (start ++ cs) = true := List.isPrefixOf_iff_prefix.2 (List.prefix_append _ _)
  rw [dropPrefix?, if_pos starts, List.drop_left]

end Cuts

/-! ## Lines -/

/-- A text without line breaks. -/
def IsOneLine (cs : List Char) : Prop := ∀ c ∈ cs, c ≠ '\n' ∧ c ≠ '\r'

instance : Decidable (IsOneLine cs) := List.decidableBAll _ cs

theorem IsOneLine.cons {c : Char} (hc : c ≠ '\n' ∧ c ≠ '\r') (h : IsOneLine cs) : IsOneLine (c :: cs) := by
  intro d hd
  rcases List.mem_cons.1 hd with rfl | hd
  · exact hc
  · exact h d hd

theorem IsOneLine.append {a b : List Char} (ha : IsOneLine a) (hb : IsOneLine b) : IsOneLine (a ++ b) := by
  intro c hc
  rcases List.mem_append.1 hc with hc | hc
  · exact ha c hc
  · exact hb c hc

theorem IsWord.isOneLine (h : IsWord w) : IsOneLine w := by
  intro c hc
  constructor
  · rintro rfl
    exact absurd (h.2 _ hc) (by decide)
  · rintro rfl
    exact absurd (h.2 _ hc) (by decide)

theorem join_isOneLine {ws : List String} (h : ∀ w ∈ ws, IsWord w.toList) : IsOneLine (join " " ws).toList := by
  induction ws with
  | nil => intro c hc; simp [join] at hc
  | cons a ws ih =>
    have ha : IsOneLine a.toList := (h a List.mem_cons_self).isOneLine
    have rest := ih fun w hw => h w (List.mem_cons_of_mem _ hw)
    cases ws with
    | nil => rwa [join, String.intercalate_singleton]
    | cons b ws =>
      rw [toList_join_cons, List.append_cons]
      have space : IsOneLine [' '] := by decide
      exact (ha.append space).append rest

theorem pieces_append (h : IsOneLine p) (cs : List Char) : pieces (p ++ '\n' :: cs) = p :: pieces cs := by
  induction p with
  | nil => rfl
  | cons c p ih =>
    have hc : c ≠ '\n' := (h c List.mem_cons_self).1
    have rest := ih fun d hd => h d (List.mem_cons_of_mem _ hd)
    show (if c = '\n' then [] :: pieces (p ++ '\n' :: cs)
      else (c :: (pieces (p ++ '\n' :: cs)).headD []) :: (pieces (p ++ '\n' :: cs)).tail) = _
    rw [if_neg hc, rest]; rfl

theorem pieces_of_isOneLine (h : IsOneLine p) : pieces p = [p] := by
  induction p with
  | nil => rfl
  | cons c p ih =>
    have rest := ih fun d hd => h d (List.mem_cons_of_mem _ hd)
    show (if c = '\n' then [] :: pieces p else (c :: (pieces p).headD []) :: (pieces p).tail) = _
    rw [if_neg (h c List.mem_cons_self).1, rest]; rfl

theorem lines_of_isOneLine (h : IsOneLine p) (h0 : p ≠ []) : lines p = [p] := by
  rw [lines, pieces_of_isOneLine h, linesOfPieces, List.isEmpty_eq_false_iff.2 h0]; rfl

theorem dropReturn_of_isOneLine (h : IsOneLine p) : dropReturn p = p := by
  rw [dropReturn, if_neg]
  intro he
  exact (h _ (List.mem_of_mem_getLast? he)).2 rfl

/-- Texts that each end with a line feed are the lines of the whole. -/
theorem lines_terminated {ls : List (List Char)} (h : ∀ l ∈ ls, IsOneLine l) : lines (ls.flatMap (· ++ ['\n'])) = ls := by
  have cut : pieces (ls.flatMap (· ++ ['\n'])) = ls ++ [[]] := by
    induction ls with
    | nil => rfl
    | cons l ls ih =>
      have rest := ih fun m hm => h m (List.mem_cons_of_mem _ hm)
      rw [List.flatMap_cons, List.append_assoc, List.singleton_append, pieces_append (h l List.mem_cons_self), rest]; rfl
  rw [lines, cut]
  clear cut
  induction ls with
  | nil => rfl
  | cons l ls ih =>
    have rest := ih fun m hm => h m (List.mem_cons_of_mem _ hm)
    have hl : dropReturn l = l := dropReturn_of_isOneLine (h l List.mem_cons_self)
    cases ls with
    | nil => rw [List.singleton_append, linesOfPieces, hl]; rfl; simp
    | cons m ls =>
      rw [List.cons_append, linesOfPieces, hl, rest]
      simp

theorem toList_join_newline {ls : List String} (h : ls ≠ []) :
    (join "\n" ls ++ "\n").toList = (ls.map String.toList).flatMap (· ++ ['\n']) := by
  induction ls with
  | nil => exact absurd rfl h
  | cons a ls ih =>
    cases ls with
    | nil => rw [join, String.intercalate_singleton, String.toList_append]; simp
    | cons b ls =>
      have rest := ih (List.cons_ne_nil b ls)
      rw [join] at rest ⊢
      rw [String.intercalate_cons_cons, List.map_cons, List.flatMap_cons, ← rest]
      simp

end M32.Text
