/-
  How tokens are written.

  1. `Spelled` are the rules by which each kind of token is written: its characters, and what may not follow them.  What number
     a row of digits is, `HasValue` says by the places of the digits.
  2. What is written by the rules is taken off as that token (`scan_of_spelled`), and all that is taken off is written by the
     rules or invalid (`isTaken_scan`).  So a token is invalid only where none is written (`lexed_scan`).
-/
import M32.Proofs.Lang.Token.Names
import M32.Proofs.Literal.Grammar

namespace M32.Lang

variable {c d : Char} {cs rest text : List Char} {s : Symbol} {kind : TokenKind}

/-! ## What follows -/

/-- Whether what follows a word or a number ends it. -/
def IsFree (cs : List Char) : Prop := ∀ c ∈ cs.head?, isWordChar c = false

theorem isFree_nil : IsFree [] := nofun

theorem isFree_cons (h : isWordChar c = false) (cs : List Char) : IsFree (c :: cs) := by
  rintro d ⟨⟩
  exact h

theorem takeWhile_append_of_head {p : Char → Bool} (all : ∀ c ∈ cs, p c = true) (stop : ∀ c ∈ rest.head?, p c = false) :
    (cs ++ rest).takeWhile p = cs := by
  rw [List.takeWhile_append_of_pos all]
  cases rest with
  | nil => rw [List.takeWhile_nil, List.append_nil]
  | cons d rest => rw [List.takeWhile_cons, stop d rfl, if_neg Bool.false_ne_true, List.append_nil]

theorem dropWhile_append_of_head {p : Char → Bool} (all : ∀ c ∈ cs, p c = true) (stop : ∀ c ∈ rest.head?, p c = false) :
    (cs ++ rest).dropWhile p = rest := by
  rw [List.dropWhile_append_of_pos all]
  cases rest with
  | nil => rfl
  | cons d rest => rw [List.dropWhile_cons, stop d rfl, if_neg Bool.false_ne_true]

theorem isFree_dropWhile (cs : List Char) : IsFree (cs.dropWhile isWordChar) := by
  intro c hc
  have stop := List.head?_dropWhile_not isWordChar cs
  rw [hc] at stop
  exact Bool.eq_false_iff.2 (by simpa using stop)

/-! ## Rules -/

/-- The mark at the end of a number, if it is unsigned. -/
def unsignedMark (isUnsigned : Bool) : List Char := if isUnsigned then ['u'] else []

/-- Whether a text is a number: decimal digits, or hexadecimal ones after their mark, with separators. -/
inductive IsNumeral : List Char → Nat → Bool → Prop where
  | decimal {first : Char} {row : List Char} {value : Nat} (isUnsigned : Bool) (digit : first.isDigit = true)
      (digits : HasValue 10 (first :: row) value) : IsNumeral (first :: (row ++ unsignedMark isUnsigned)) value isUnsigned
  | hex {mark : Char} {row : List Char} {value : Nat} (isUnsigned : Bool) (marked : mark = 'x' ∨ mark = 'X')
      (digits : HasValue 16 row value) : IsNumeral ('0' :: mark :: (row ++ unsignedMark isUnsigned)) value isUnsigned

/-- Letters after a backslash, and the characters they mean. -/
def escapes : List (Char × Char) :=
  [('n', '\n'), ('t', '\t'), ('r', '\r'), ('\\', '\\'), ('\'', '\''), ('0', '\x00')]

/-- Whether a text between quotes is a character: an ASCII character for itself, or a letter after a backslash. -/
inductive IsChar : List Char → Char → Prop where
  | plain {c : Char} (ascii : c.toNat < 128) (other : c ≠ '\'' ∧ c ≠ '\\') : IsChar [c] c
  | escaped {letter c : Char} (escape : (letter, c) ∈ escapes) : IsChar ['\\', letter] c

/-- How a token of a kind is written before the rest of its line.
    1. No symbol stands where a longer one or a comment starts.
    2. Words and numbers end where no more characters of words follow.
    3. A comment takes the rest of the line. -/
def Spelled (text rest : List Char) : TokenKind → Prop
  | .symbol s => text = s.spelling ∧ (∀ (t : Symbol) (d : Char), t.spelling = text ++ [d] → rest.head? ≠ some d) ∧
      (text = ['/'] → rest.head? ≠ some '/')
  | .keyword k => text = k.spelling.toList ∧ IsFree rest
  | .ident name => text = name.toList ∧ IsName name ∧ (∀ k : Keyword, k.spelling ≠ name) ∧ IsFree rest
  | .number lexeme value isUnsigned => text = lexeme.toList ∧ IsNumeral text value isUnsigned ∧ value < 2 ^ 64 ∧
      (isUnsigned = true ↔ text.getLast? = some 'u') ∧ IsFree rest
  | .char c => ∃ body, text = '\'' :: (body ++ ['\'']) ∧ IsChar body c
  | .comment shown => ∃ body, text = '/' :: '/' :: body ∧ shown = String.ofList (Text.trimStart body) ∧ rest = []
  | .invalid _ => False

/-! ## Symbols -/

theorem spelling_of_ofPair? (h : Symbol.ofPair? c d = some s) : s.spelling = [c, d] := by
  rw [Symbol.ofPair?] at h
  have found := List.find?_some h
  exact of_decide_eq_true found

theorem spelling_of_ofChar? (h : Symbol.ofChar? c = some s) : s.spelling = [c] := by
  rw [Symbol.ofChar?] at h
  have found := List.find?_some h
  exact of_decide_eq_true found

/-- The first characters of pairs. -/
theorem pair_cases (h : Symbol.ofPair? c d = some s) : c ∈ ['=', '!', '<', '>', '&', '|'] ∧ (c = '!' → d = '=') := by
  have spelled := spelling_of_ofPair? h
  cases s <;> cases spelled <;> decide

/-- A character that makes no pair. -/
theorem scan_single (alone : ∀ d ∈ cs.head?, Symbol.ofPair? c d = none) (slash : c ≠ '/') : scan c cs = scanSingle c cs := by
  cases cs with
  | nil => rfl
  | cons d cs =>
    have no_comment : (decide (c = '/') && decide (d = '/')) = false := by simp [slash]
    rw [scan, alone d rfl]
    simp only [no_comment, Bool.false_eq_true, if_false]

/-! ## Words -/

theorem notMem_pairs_of_isWordChar (h : isWordChar c = true) : c ∉ ['=', '!', '<', '>', '&', '|'] ∧ c ≠ '/' := by
  constructor
  · intro mem
    simp only [List.mem_cons, List.not_mem_nil, or_false] at mem
    rcases mem with rfl | rfl | rfl | rfl | rfl | rfl <;> exact absurd h (by decide)
  · rintro rfl
    exact absurd h (by decide)

theorem ofChar?_of_isWordChar (h : isWordChar c = true) : Symbol.ofChar? c = none := by
  refine Option.eq_none_iff_forall_ne_some.2 ?_
  intro s found
  have spelled := spelling_of_ofChar? found
  cases s <;> cases spelled <;> exact absurd h (by decide)

theorem scan_of_isWordChar (h : isWordChar c = true) (cs : List Char) : scan c cs = scanSingle c cs := by
  obtain ⟨no_pair, slash⟩ := notMem_pairs_of_isWordChar h
  refine scan_single ?_ slash
  intro d _
  refine Option.eq_none_iff_forall_ne_some.2 ?_
  intro t pair
  exact no_pair (pair_cases pair).1

theorem isBlank_of_isWordChar (h : isWordChar c = true) : Text.isBlank c = false := by
  obtain ⟨lo, hi⟩ := isWordChar_visible h
  exact Text.isBlank_of_visible lo hi

theorem isDigit_of_isWordStart (h : isWordStart c = true) : c.isDigit = false ∧ c ≠ '\'' := by
  constructor
  · refine Bool.eq_false_iff.2 ?_
    intro digit
    obtain ⟨-, hi⟩ := isDigit_toNat digit
    rw [isWordStart, Bool.or_eq_true, beq_iff_eq] at h
    rcases h with rfl | letter
    · exact absurd hi (by decide)
    · obtain ⟨after, -⟩ := isAlpha_toNat letter
      omega
  · rintro rfl
    exact absurd h (by decide)

/-- What a word means. -/
def wordKind (word : String) : TokenKind :=
  match Keyword.ofSpelling? word with
  | some k => .keyword k
  | none => .ident word

theorem ofSpelling?_eq_some_iff {word : String} {k : Keyword} : Keyword.ofSpelling? word = some k ↔ k.spelling = word := by
  constructor
  · intro h
    simpa using List.find?_some h
  · rintro rfl
    cases k <;> decide

theorem isName_keyword (k : Keyword) : IsName k.spelling := by
  cases k <;> exact ⟨_, _, rfl, by decide, List.all_eq_true.1 rfl⟩

/-- A word is taken whole. -/
theorem scan_word {word : String} (h : IsName word) (hw : word.toList = c :: cs) (free : IsFree rest) :
    scan c (cs ++ rest) = ⟨wordKind word, c :: cs, rest⟩ := by
  obtain ⟨c', cs', hw', start, all⟩ := h
  obtain ⟨rfl, rfl⟩ : c = c' ∧ cs = cs' := List.cons.inj (hw.symm.trans hw')
  have word_char := isWordChar_of_isWordStart start
  obtain ⟨no_digit, no_quote⟩ := isDigit_of_isWordStart start
  have whole : String.ofList (c :: cs) = word := by rw [← hw, String.ofList_toList]
  rw [scan_of_isWordChar word_char, scanSingle, ofChar?_of_isWordChar word_char]
  simp only [no_digit, if_neg no_quote, start, if_true, Bool.false_eq_true, if_false]
  rw [scanWord, takeWhile_append_of_head all free, dropWhile_append_of_head all free, whole]
  rfl

/-! ## Numbers -/

theorem isWordChar_of_isDigit (h : c.isDigit = true) : isWordChar c = true := by
  rw [isWordChar, Char.isAlphanum, h]
  simp

/-- Digits of every base, and separators, are characters of words. -/
theorem isWordChar_of_isDigitOf {base : Nat} (h : isDigitOf base c = true) : isWordChar c = true := by
  rw [isDigitOf, Bool.or_eq_true, beq_iff_eq, Option.isSome_iff_exists] at h
  rcases h with rfl | ⟨v, value⟩
  · decide
  · have small := digitValue?_lt value
    have code : c.val.toNat = c.toNat := rfl
    simp only [digitValue?] at value
    unfold isWordChar Char.isAlphanum Char.isAlpha Char.isUpper Char.isLower Char.isDigit
    simp only [Bool.or_eq_true, Bool.and_eq_true, decide_eq_true_eq, UInt32.le_iff_toNat_le, ge_iff_le]
    show _ ∨ ((65 ≤ c.val.toNat ∧ c.val.toNat ≤ 90) ∨ (97 ≤ c.val.toNat ∧ c.val.toNat ≤ 122)) ∨
      (48 ≤ c.val.toNat ∧ c.val.toNat ≤ 57)
    grind

theorem isDigitOf_mark (base : Nat) : isDigitOf base 'u' = false := by simp [isDigitOf, digitValue?]

/-- The mark of an unsigned number is split off before what ends the number. -/
theorem splitUnsignedMark_of_isFree (isUnsigned : Bool) (free : IsFree rest) :
    splitUnsignedMark (unsignedMark isUnsigned ++ rest) = (unsignedMark isUnsigned, rest) := by
  cases isUnsigned with
  | true => rfl
  | false =>
    cases rest with
    | nil => rfl
    | cons d rest =>
      show splitUnsignedMark (d :: rest) = ([], d :: rest)
      unfold splitUnsignedMark
      split
      · next same =>
        cases same
        exact absurd (free 'u' rfl) (by decide)
      · rfl

theorem splitHexMark_of_head (h : ∀ d ∈ cs.head?, d ≠ 'x' ∧ d ≠ 'X') (c : Char) : splitHexMark c cs = ([], 10, cs) := by
  unfold splitHexMark
  split
  · split
    · exact absurd rfl (h 'x' rfl).1
    · exact absurd rfl (h 'X' rfl).2
    · rfl
  · rfl

theorem isDigitOf_of_hasValue {base value : Nat} {row : List Char} (h : HasValue base row value) :
    ∀ c ∈ row, isDigitOf base c = true := by
  intro c hc
  rw [isDigitOf, Bool.or_eq_true, beq_iff_eq]
  rcases h.only c hc with separator | digit
  · exact .inl separator
  · exact .inr (Option.isSome_iff_exists.2 digit)

theorem numberValue?_eq_some_iff {base value : Nat} {row : List Char} :
    numberValue? base row = some value ↔ HasValue base row value ∧ value < 2 ^ 64 := by
  rw [numberValue?, Option.filter_eq_some_iff, digitsValue?_eq_some_iff, decide_eq_true_eq]
  rfl

/-- A number is unsigned if it ends with the mark: no digit is like it. -/
theorem IsNumeral.getLast? {value : Nat} {isUnsigned : Bool} (h : IsNumeral text value isUnsigned) :
    isUnsigned = true ↔ text.getLast? = some 'u' := by
  have no_digit {base : Nat} : ¬ isDigitOf base 'u' = true := Bool.eq_false_iff.1 (isDigitOf_mark base)
  cases isUnsigned with
  | true =>
    refine ⟨fun _ => ?_, fun _ => rfl⟩
    cases h with
    | decimal =>
      rw [← List.cons_append]
      exact List.getLast?_concat
    | hex =>
      rw [← List.cons_append, ← List.cons_append]
      exact List.getLast?_concat
  | false =>
    refine ⟨fun marked => absurd marked Bool.false_ne_true, fun last => ?_⟩
    have mem := List.mem_of_getLast? last
    exfalso
    cases h with
    | decimal _ digit digits =>
      rw [unsignedMark, if_neg Bool.false_ne_true, List.append_nil] at mem
      exact no_digit (isDigitOf_of_hasValue digits _ mem)
    | hex _ marked digits =>
      rw [unsignedMark, if_neg Bool.false_ne_true, List.append_nil] at mem
      rcases List.mem_cons.1 mem with zero | mem
      · exact absurd zero (by decide)
      · rcases List.mem_cons.1 mem with mark | mem
        · rw [← mark] at marked
          exact absurd marked (by decide)
        · exact no_digit (isDigitOf_of_hasValue digits _ mem)

/-- Digits after their mark, the mark of an unsigned number and no more. -/
theorem scanNumber_of_split {first : Char} {base value : Nat} (mark : List Char) {row : List Char} (isUnsigned : Bool)
    (split : splitHexMark first (mark ++ (row ++ (unsignedMark isUnsigned ++ rest))) = (mark, base, row ++ (unsignedMark isUnsigned ++ rest)))
    (digits : ∀ d ∈ row, isDigitOf base d = true)
    (hv : numberValue? base (if mark.isEmpty then first :: row else row) = some value) (free : IsFree rest) :
    scanNumber first (mark ++ (row ++ (unsignedMark isUnsigned ++ rest))) =
      ⟨.number (String.ofList (first :: (mark ++ (row ++ unsignedMark isUnsigned)))) value isUnsigned,
        first :: (mark ++ (row ++ unsignedMark isUnsigned)), rest⟩ := by
  have stop : ∀ d ∈ (unsignedMark isUnsigned ++ rest).head?, isDigitOf base d = false := by
    intro d hd
    cases isUnsigned with
    | true =>
      cases hd
      exact isDigitOf_mark base
    | false =>
      refine Bool.eq_false_iff.2 fun digit => ?_
      have no_word := free d hd
      rw [isWordChar_of_isDigitOf digit] at no_word
      cases no_word
  have none_word : ∀ d ∈ ([] : List Char), isWordChar d = true := List.forall_mem_nil _
  have spoil : ([] ++ rest).takeWhile isWordChar = [] := takeWhile_append_of_head none_word free
  have after : ([] ++ rest).dropWhile isWordChar = rest := dropWhile_append_of_head none_word free
  rw [List.nil_append] at spoil after
  rw [scanNumber, split]
  simp only [takeWhile_append_of_head digits stop, dropWhile_append_of_head digits stop,
    splitUnsignedMark_of_isFree isUnsigned free, spoil, after, hv, List.append_nil, List.isEmpty_nil, if_true]
  cases isUnsigned <;> rfl

/-- A number is taken whole. -/
theorem scan_number {value : Nat} {isUnsigned : Bool} (h : IsNumeral (c :: cs) value isUnsigned) (small : value < 2 ^ 64)
    (free : IsFree rest) : scan c (cs ++ rest) = ⟨.number (String.ofList (c :: cs)) value isUnsigned, c :: cs, rest⟩ := by
  have digit : c.isDigit = true := by
    cases h with
    | decimal _ digit _ => exact digit
    | hex => decide
  have word_char := isWordChar_of_isDigit digit
  rw [scan_of_isWordChar word_char, scanSingle, ofChar?_of_isWordChar word_char]
  simp only [digit, if_true]
  cases h with
  | @decimal _ row _ _ digit digits =>
    have others : ∀ d ∈ row, isDigitOf 10 d = true := fun d hd => isDigitOf_of_hasValue digits d (List.mem_cons_of_mem _ hd)
    have no_mark : ∀ d ∈ (row ++ (unsignedMark isUnsigned ++ rest)).head?, d ≠ 'x' ∧ d ≠ 'X' := by
      have letter {d : Char} (h : isDigitOf 10 d = true ∨ d = 'u' ∨ isWordChar d = false) : d ≠ 'x' ∧ d ≠ 'X' := by
        constructor
        · rintro rfl
          exact absurd h (by decide)
        · rintro rfl
          exact absurd h (by decide)
      intro d hd
      refine letter ?_
      cases row with
      | cons e row =>
        cases hd
        exact .inl (others d List.mem_cons_self)
      | nil =>
        cases isUnsigned with
        | true =>
          cases hd
          exact .inr (.inl rfl)
        | false => exact .inr (.inr (free d hd))
    rw [List.append_assoc]
    exact scanNumber_of_split [] isUnsigned (splitHexMark_of_head no_mark c) others
      (numberValue?_eq_some_iff.2 ⟨digits, small⟩) free
  | @hex mark row _ _ marked digits =>
    have split : splitHexMark '0' (mark :: (row ++ (unsignedMark isUnsigned ++ rest))) =
        ([mark], 16, row ++ (unsignedMark isUnsigned ++ rest)) := by
      rcases marked with rfl | rfl
      · rfl
      · rfl
    rw [List.cons_append, List.append_assoc]
    exact scanNumber_of_split [mark] isUnsigned split (isDigitOf_of_hasValue digits)
      (numberValue?_eq_some_iff.2 ⟨digits, small⟩) free

/-! ## Characters -/

theorem scan_quote (cs : List Char) : scan '\'' cs = scanChar cs := by
  have alone : ∀ d ∈ cs.head?, Symbol.ofPair? '\'' d = none := by
    intro d _
    refine Option.eq_none_iff_forall_ne_some.2 ?_
    intro t pair
    exact absurd (pair_cases pair).1 (by decide)
  rw [scan_single alone (by decide)]
  rfl

theorem unescape?_of_mem (h : (d, c) ∈ escapes) : unescape? d = some c :=
  (by decide : ∀ e ∈ escapes, unescape? e.1 = some e.2) (d, c) h

theorem ascii_of_mem (h : (d, c) ∈ escapes) : c.toNat < 128 :=
  (by decide : ∀ e ∈ escapes, e.2.toNat < 128) (d, c) h

/-- A character between quotes is taken with both of them. -/
theorem scan_char (h : IsChar text c) (rest : List Char) :
    scan '\'' (text ++ '\'' :: rest) = ⟨.char c, '\'' :: (text ++ ['\'']), rest⟩ := by
  have closed (shown : List Char) (ascii : c.toNat < 128) :
      closeChar shown text (some c) ('\'' :: rest) = ⟨.char c, '\'' :: (text ++ ['\'']), rest⟩ := by
    simp [closeChar, splitQuote, ascii]
  rw [scan_quote]
  cases h with
  | plain ascii other =>
    rw [← closed ['\'', c] ascii]
    show scanChar (c :: '\'' :: rest) = _
    unfold scanChar
    split
    · next same => exact absurd (List.cons.inj same).1 other.2
    · next same => cases same
    · next same => exact absurd (List.cons.inj same).1 other.1
    · next same =>
      cases same
      rfl
    · next same => cases same
  | @escaped letter _ escape =>
    rw [← closed ['\'', '\\', letter] (ascii_of_mem escape), ← unescape?_of_mem escape]
    rfl

/-! ## What is written is taken -/

theorem ne_nil_of_spelled (h : Spelled text rest kind) : text ≠ [] := by
  cases kind with
  | symbol s =>
    obtain ⟨rfl, -⟩ := h
    cases s <;> exact List.cons_ne_nil _ _
  | keyword k =>
    obtain ⟨rfl, -⟩ := h
    exact (isName_keyword k).isWord.1
  | ident name =>
    obtain ⟨rfl, named, -⟩ := h
    exact named.isWord.1
  | number lexeme value isUnsigned =>
    obtain ⟨-, number, -⟩ := h
    cases number with
    | decimal => exact List.cons_ne_nil _ _
    | hex => exact List.cons_ne_nil _ _
  | char c =>
    obtain ⟨body, rfl, -⟩ := h
    exact List.cons_ne_nil _ _
  | comment shown =>
    obtain ⟨body, rfl, -⟩ := h
    exact List.cons_ne_nil _ _
  | invalid => exact h.elim

/-- A symbol is taken, unless a longer one or a comment stands there. -/
theorem scan_symbol (hs : s.spelling = c :: cs) (longest : ∀ (t : Symbol) (d : Char), t.spelling = s.spelling ++ [d] → rest.head? ≠ some d)
    (no_comment : s.spelling = ['/'] → rest.head? ≠ some '/') : scan c (cs ++ rest) = ⟨.symbol s, c :: cs, rest⟩ := by
  have single (h : Symbol.ofChar? c = some s) (hc : cs = []) : scan c (cs ++ rest) = ⟨.symbol s, c :: cs, rest⟩ := by
    subst hc
    rw [hs] at longest no_comment
    show scan c rest = ⟨.symbol s, [c], rest⟩
    cases rest with
    | nil => rw [scan, scanSingle, h]
    | cons d rest =>
      have alone : Symbol.ofPair? c d = none :=
        Option.eq_none_iff_forall_ne_some.2 fun t pair => longest t d (spelling_of_ofPair? pair) rfl
      have no_slashes : (decide (c = '/') && decide (d = '/')) = false := by
        rw [Bool.and_eq_false_iff, decide_eq_false_iff_not, decide_eq_false_iff_not]
        refine or_iff_not_imp_left.2 fun slash => ?_
        rintro rfl
        exact no_comment (by rw [not_not.1 slash]) rfl
      rw [scan, alone]
      simp only [no_slashes, Bool.false_eq_true, if_false]
      rw [scanSingle, h]
  cases s <;> cases hs
  case eqEq | notEq | geq | leq | andAnd | orOr => rfl
  all_goals exact single (by decide) rfl

/-- What is written by the rules is taken as what it is. -/
theorem scan_of_spelled (h : Spelled (c :: cs) rest kind) : scan c (cs ++ rest) = ⟨kind, c :: cs, rest⟩ := by
  cases kind with
  | symbol s =>
    obtain ⟨spelling, longest, no_comment⟩ := h
    rw [spelling] at longest no_comment
    exact scan_symbol spelling.symm longest no_comment
  | keyword k =>
    obtain ⟨spelling, free⟩ := h
    rw [scan_word (isName_keyword k) spelling.symm free, wordKind, ofSpelling?_eq_some_iff.2 rfl]
  | ident name =>
    obtain ⟨spelling, named, no_keyword, free⟩ := h
    have none : Keyword.ofSpelling? name = none :=
      Option.eq_none_iff_forall_ne_some.2 fun k found => no_keyword k (ofSpelling?_eq_some_iff.1 found)
    rw [scan_word named spelling.symm free, wordKind, none]
  | number lexeme value isUnsigned =>
    obtain ⟨spelling, number, small, -, free⟩ := h
    rw [scan_number number small free, spelling, String.ofList_toList]
  | char a =>
    obtain ⟨body, spelling, written⟩ := h
    cases spelling
    rw [List.append_assoc]
    exact scan_char written rest
  | comment shown =>
    obtain ⟨body, spelling, rfl, rfl⟩ := h
    cases spelling
    rw [List.append_nil]
    rfl
  | invalid => exact h.elim

/-! ## What is taken is written, or invalid -/

/-- Whether a kind is that of an invalid text, which it shows but for quotes at the end. -/
def IsInvalid (kind : TokenKind) (text : List Char) : Prop :=
  ∃ shown quotes, kind = .invalid (String.ofList shown) ∧ text = shown ++ quotes ∧ ∀ q ∈ quotes, q = '\''

/-- Whether a token is written by the rules or invalid. -/
def IsTaken (t : Scanned) : Prop := Spelled t.text t.rest t.kind ∨ IsInvalid t.kind t.text

theorem isTaken_scanWord (start : isWordStart c = true) (cs : List Char) : IsTaken (scanWord c cs) := by
  have named : IsName (String.ofList (c :: cs.takeWhile isWordChar)) :=
    ⟨c, cs.takeWhile isWordChar, String.toList_ofList, start, fun d hd => List.all_eq_true.1 List.all_takeWhile d hd⟩
  refine .inl ?_
  unfold scanWord
  simp only
  split
  · next k found => exact ⟨by rw [ofSpelling?_eq_some_iff.1 found, String.toList_ofList], isFree_dropWhile cs⟩
  · next none_found =>
    refine ⟨String.toList_ofList.symm, named, fun k same => ?_, isFree_dropWhile cs⟩
    rw [ofSpelling?_eq_some_iff.2 same] at none_found
    cases none_found

theorem splitHexMark_cases (c : Char) (cs : List Char) :
    ((splitHexMark c cs).1 = [] ∧ (splitHexMark c cs).2.1 = 10) ∨
    (c = '0' ∧ ∃ mark, (mark = 'x' ∨ mark = 'X') ∧ (splitHexMark c cs).1 = [mark] ∧ (splitHexMark c cs).2.1 = 16) := by
  unfold splitHexMark
  split
  · next zero =>
    split
    · exact .inr ⟨zero, 'x', .inl rfl, rfl, rfl⟩
    · exact .inr ⟨zero, 'X', .inr rfl, rfl, rfl⟩
    · exact .inl ⟨rfl, rfl⟩
  · exact .inl ⟨rfl, rfl⟩

theorem splitUnsignedMark_fst (cs : List Char) :
    (splitUnsignedMark cs).1 = unsignedMark (!(splitUnsignedMark cs).1.isEmpty) := by
  unfold splitUnsignedMark
  split <;> rfl

theorem isTaken_scanNumber (digit : c.isDigit = true) (cs : List Char) : IsTaken (scanNumber c cs) := by
  unfold scanNumber
  have hex := splitHexMark_cases c cs
  generalize splitHexMark c cs = split at hex ⊢
  obtain ⟨mark, base, body⟩ := split
  simp only at hex ⊢
  have unsigned := splitUnsignedMark_fst (body.dropWhile (isDigitOf base))
  generalize splitUnsignedMark (body.dropWhile (isDigitOf base)) = split at unsigned ⊢
  obtain ⟨suffix, after⟩ := split
  simp only at unsigned ⊢
  have invalid (text rest : List Char) : IsTaken ⟨.invalid (String.ofList text), text, rest⟩ :=
    .inr ⟨text, [], rfl, (List.append_nil text).symm, List.forall_mem_nil _⟩
  split
  · next value found =>
    split
    · next no_spoil =>
      obtain ⟨digits, small⟩ := numberValue?_eq_some_iff.1 found
      have number : IsNumeral (c :: (mark ++ (body.takeWhile (isDigitOf base) ++ suffix))) value (!suffix.isEmpty) := by
        generalize (!suffix.isEmpty) = isUnsigned at unsigned ⊢
        subst unsigned
        rcases hex with ⟨rfl, rfl⟩ | ⟨rfl, m, marked, rfl, rfl⟩
        · exact .decimal isUnsigned digit digits
        · exact .hex isUnsigned marked digits
      rw [List.isEmpty_iff.1 no_spoil, List.append_nil]
      exact .inl ⟨String.toList_ofList.symm, number, small, number.getLast?, isFree_dropWhile after⟩
    · exact invalid _ _
  · exact invalid _ _

theorem splitQuote_cases (cs : List Char) : (splitQuote cs).1 = [] ∨ (splitQuote cs).1 = ['\''] := by
  unfold splitQuote
  split
  · exact .inr rfl
  · exact .inl rfl

theorem isTaken_closeChar {shown body quotes : List Char} {value? : Option Char} (cs : List Char)
    (written : ∀ a ∈ value?, a.toNat < 128 → IsChar body a) (whole : '\'' :: body = shown ++ quotes) (only : ∀ q ∈ quotes, q = '\'') :
    IsTaken (closeChar shown body value? cs) := by
  have closed := splitQuote_cases cs
  unfold closeChar
  generalize splitQuote cs = split at closed ⊢
  obtain ⟨close, rest⟩ := split
  simp only at closed ⊢
  have invalid : IsTaken ⟨.invalid (String.ofList shown), '\'' :: (body ++ close), rest⟩ := by
    refine .inr ⟨shown, quotes ++ close, rfl, ?_, fun q hq => ?_⟩
    · rw [← List.cons_append, whole, List.append_assoc]
    · rcases List.mem_append.1 hq with hq | hq
      · exact only q hq
      · rcases closed with rfl | rfl
        · cases hq
        · exact List.mem_singleton.1 hq
  cases value? with
  | none => exact invalid
  | some a =>
    rcases closed with rfl | rfl
    · simpa using invalid
    · by_cases ascii : a.toNat < 128
      · simp only [ascii, List.isEmpty_cons]
        exact .inl ⟨body, rfl, written a rfl ascii⟩
      · simpa [ascii] using invalid

theorem mem_of_unescape? (h : unescape? d = some c) : (d, c) ∈ escapes := by
  unfold unescape? at h
  split at h <;> cases h <;> decide

theorem isTaken_scanChar (cs : List Char) : IsTaken (scanChar cs) := by
  have unread {body : List Char} : ∀ a ∈ (none : Option Char), a.toNat < 128 → IsChar body a :=
    fun a h => absurd h (Option.not_mem_none a)
  unfold scanChar
  split
  · next letter cs =>
    exact isTaken_closeChar cs (fun a found _ => .escaped (mem_of_unescape? found)) (List.append_nil _).symm (List.forall_mem_nil _)
  · exact isTaken_closeChar [] unread (List.append_nil _).symm (List.forall_mem_nil _)
  · next cs => exact isTaken_closeChar cs unread rfl fun q hq => List.mem_singleton.1 hq
  · next c cs more last quote =>
    have backslash : c ≠ '\\' := fun same => by
      cases cs with
      | nil => exact last same rfl
      | cons d cs => exact more d cs same rfl
    refine isTaken_closeChar cs ?_ (List.append_nil _).symm (List.forall_mem_nil _)
    rintro a ⟨⟩ ascii
    exact .plain ascii ⟨quote, backslash⟩
  · exact isTaken_closeChar [] unread (List.append_nil _).symm (List.forall_mem_nil _)

theorem isTaken_scanSingle (longest : ∀ (t : Symbol) (d : Char), t.spelling = [c, d] → cs.head? ≠ some d)
    (no_comment : c = '/' → cs.head? ≠ some '/') : IsTaken (scanSingle c cs) := by
  unfold scanSingle
  split
  · next s found =>
    refine .inl ⟨(spelling_of_ofChar? found).symm, longest, fun slash => no_comment (List.cons.inj slash).1⟩
  · split
    · next digit => exact isTaken_scanNumber digit cs
    · split
      · exact isTaken_scanChar cs
      · split
        · next start => exact isTaken_scanWord start cs
        · exact .inr ⟨[c], [], rfl, rfl, List.forall_mem_nil _⟩

/-- What is taken off a text is written by the rules, or shown as an invalid token. -/
theorem isTaken_scan (c : Char) (cs : List Char) : IsTaken (scan c cs) := by
  unfold scan
  split
  · exact isTaken_scanSingle (fun _ _ _ => Option.some_ne_none _ |>.symm) fun _ => Option.some_ne_none _ |>.symm
  · next d rest =>
    split
    · next s pair =>
      refine .inl ⟨(spelling_of_ofPair? pair).symm, fun t e spelling => ?_, fun single => ?_⟩
      · cases t <;> cases spelling
      · cases single
    · next no_pair =>
      split
      · next slashes =>
        obtain ⟨rfl, rfl⟩ : c = '/' ∧ d = '/' := by simpa using slashes
        exact .inl ⟨rest, rfl, rfl, rfl⟩
      · next no_slashes =>
        refine isTaken_scanSingle (fun t e spelling => ?_) fun slash => ?_
        · rintro ⟨⟩
          have found : Symbol.ofPair? c d ≠ none := by
            cases t <;> cases spelling <;> decide
          exact found no_pair
        · rintro ⟨⟩
          exact no_slashes (by simp [slash])

/-- How a text is lexed before the rest of its line: by the rules, or as an invalid one if by the rules no token starts there. -/
def Lexed (text rest : List Char) (kind : TokenKind) : Prop :=
  Spelled text rest kind ∨
  IsInvalid kind text ∧ ∀ text' rest' kind', text' ++ rest' = text ++ rest → ¬ Spelled text' rest' kind'

theorem lexed_scan (c : Char) (cs : List Char) : Lexed (scan c cs).text (scan c cs).rest (scan c cs).kind := by
  rcases isTaken_scan c cs with spelled | shows
  · exact .inl spelled
  · refine .inr ⟨shows, fun text rest kind whole spelled => ?_⟩
    rw [scan_append] at whole
    cases text with
    | nil => exact ne_nil_of_spelled spelled rfl
    | cons c' t =>
      -- what is written by the rules would have been taken
      obtain ⟨rfl, rfl⟩ : c' = c ∧ t ++ rest = cs := List.cons.inj whole
      obtain ⟨shown, quotes, invalid, -⟩ := shows
      rw [scan_of_spelled spelled] at invalid
      cases invalid
      exact spelled

end M32.Lang
