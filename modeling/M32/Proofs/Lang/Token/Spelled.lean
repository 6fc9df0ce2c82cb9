/-
  Tokens of texts that are put together.

  1. `kindsOf` are the kinds of the tokens of a line, wherever it stands (`map_kind_tokensFrom`).
  2. A word, a number or a character that is written is one token, if what follows is no further character of a word
     (`IsFree`): `kindsOf_word`, `kindsOf_number`, `kindsOf_char`.  A symbol is one token if it makes no pair with what follows.
  3. `Spells cs ks` says that a text is cut into tokens of these kinds, whatever comes after it, and that it may stand
     after `!`.  It holds of a text if it holds of its parts.
-/
import M32.Lang.Tree
import M32.Proofs.Lang.Token.Spelling

namespace M32.Lang

/-! ## Kinds -/

/-- The kinds of the tokens of a line. -/
def kindsOf (cs : List Char) : List TokenKind := (tokensFrom "" 0 0 cs).map Token.kind

theorem kind_tokensFrom_eq (file file' : String) (line line' col col' : Nat) (cs : List Char) :
    (tokensFrom file line col cs).map Token.kind = (tokensFrom file' line' col' cs).map Token.kind := by
  induction col, cs using tokensFrom.induct generalizing col' with
  | case1 col => rw [tokensFrom, tokensFrom]
  | case2 col c cs blank ih => rw [tokensFrom, tokensFrom, if_pos blank, if_pos blank, ih]
  | case3 col c cs visible ih =>
    rw [tokensFrom, tokensFrom, if_neg visible, if_neg visible, List.map_cons, List.map_cons, ih]

theorem map_kind_tokensFrom (file : String) (line col : Nat) (cs : List Char) :
    (tokensFrom file line col cs).map Token.kind = kindsOf cs := kind_tokensFrom_eq file "" line 0 col 0 cs

theorem kindsOf_nil : kindsOf [] = [] := by
  rw [kindsOf, tokensFrom]; rfl

theorem kindsOf_space (cs : List Char) : kindsOf (' ' :: cs) = kindsOf cs := by
  rw [kindsOf, tokensFrom, if_pos (by decide), map_kind_tokensFrom]

/-- A token, and those of what it leaves. -/
theorem kindsOf_cons {c : Char} {cs rest t : List Char} {k : TokenKind} (visible : Text.isBlank c = false)
    (h : scan c cs = ⟨k, t, rest⟩) : kindsOf (c :: cs) = k :: kindsOf rest := by
  rw [kindsOf, tokensFrom, visible, if_neg Bool.false_ne_true, List.map_cons, h, map_kind_tokensFrom]

/-! ## Symbols -/

variable {c d : Char} {cs rest : List Char} {s : Symbol}

theorem isOneLine_spelling (s : Symbol) : Text.IsOneLine s.spelling := by cases s <;> decide

theorem kindsOf_symbol (h : Symbol.ofChar? c = some s) (alone : ∀ d ∈ cs.head?, Symbol.ofPair? c d = none) (slash : c ≠ '/')
    (visible : Text.isBlank c = false) : kindsOf (c :: cs) = .symbol s :: kindsOf cs := by
  refine kindsOf_cons (t := [c]) visible ?_
  rw [scan_single alone slash, scanSingle, h]

/-- A symbol that no pair starts with. -/
theorem kindsOf_mark (h : Symbol.ofChar? c = some s) (no_pair : c ∉ ['=', '!', '<', '>', '&', '|']) (slash : c ≠ '/')
    (visible : Text.isBlank c = false) (cs : List Char) : kindsOf (c :: cs) = .symbol s :: kindsOf cs := by
  refine kindsOf_symbol h ?_ slash visible
  intro d _
  refine Option.eq_none_iff_forall_ne_some.2 ?_
  intro t pair
  exact no_pair (pair_cases pair).1

/-- A symbol with a space after it. -/
theorem kindsOf_spaced (s : Symbol) (cs : List Char) : kindsOf (s.spelling ++ ' ' :: cs) = .symbol s :: kindsOf cs := by
  have scanned : ∃ c tail, s.spelling ++ ' ' :: cs = c :: tail ∧ Text.isBlank c = false ∧
      scan c tail = ⟨.symbol s, s.spelling, ' ' :: cs⟩ := by
    cases s <;> exact ⟨_, _, rfl, rfl, rfl⟩
  obtain ⟨c, tail, text, visible, scanned⟩ := scanned
  rw [text, kindsOf_cons visible scanned, kindsOf_space]

/-! ## Words -/

theorem kindsOf_word {word : String} (h : IsName word) (free : IsFree rest) :
    kindsOf (word.toList ++ rest) = wordKind word :: kindsOf rest := by
  have named := h
  obtain ⟨c, cs, text, start, -⟩ := h
  rw [text, List.cons_append]
  exact kindsOf_cons (isBlank_of_isWordChar (isWordChar_of_isWordStart start)) (scan_word named text free)

/-! ## Numbers -/

/-- How a number is written. -/
def numberText (value : Nat) (isUnsigned : Bool) : String := toString value ++ (if isUnsigned then "u" else "")

theorem hasValue_toDigits (n : Nat) : HasValue 10 (Nat.toDigits 10 n) n := by
  have plain : (Nat.toDigits 10 n).filter (· ≠ '_') = Nat.toDigits 10 n := by
    rw [List.filter_eq_self]
    intro c hc
    have digit := isDigit_of_mem_toDigits hc
    refine decide_eq_true ?_
    rintro rfl
    exact absurd digit (by decide)
  have some_digits : (Nat.toDigits 10 n).isEmpty = false := List.isEmpty_eq_false_iff.2 Nat.toDigits_ne_nil
  rw [← digitsValue?_eq_some_iff, plain, digitsValue?, some_digits]
  exact digitsFrom?_toDigits n

theorem toList_numberText (n : Nat) (isUnsigned : Bool) :
    (numberText n isUnsigned).toList = Nat.toDigits 10 n ++ unsignedMark isUnsigned := by
  rw [numberText, String.toList_append, toList_toString]
  cases isUnsigned <;> rfl

theorem isWordChar_of_mem_numberText {n : Nat} {isUnsigned : Bool} (h : c ∈ (numberText n isUnsigned).toList) :
    isWordChar c = true := by
  rw [toList_numberText, List.mem_append] at h
  rcases h with digit | mark
  · exact isWordChar_of_isDigit (isDigit_of_mem_toDigits digit)
  · cases isUnsigned with
    | true => rw [List.mem_singleton.1 mark]; decide
    | false => cases mark

theorem isNumeral_numberText (n : Nat) (isUnsigned : Bool) : IsNumeral (numberText n isUnsigned).toList n isUnsigned := by
  have value := hasValue_toDigits n
  have digits : ∀ c ∈ Nat.toDigits 10 n, c.isDigit = true := fun c hc => isDigit_of_mem_toDigits hc
  obtain ⟨c, cs, cons⟩ := List.exists_cons_of_ne_nil (Nat.toDigits_ne_nil (b := 10) (n := n))
  rw [toList_numberText, cons]
  rw [cons] at value digits
  exact .decimal isUnsigned (digits c List.mem_cons_self) value

theorem kindsOf_number {n : Nat} (h : n < 0x10000000000000000) (isUnsigned : Bool) (free : IsFree rest) :
    kindsOf ((numberText n isUnsigned).toList ++ rest) = .number (numberText n isUnsigned) n isUnsigned :: kindsOf rest := by
  have number := isNumeral_numberText n isUnsigned
  have shown : String.ofList (numberText n isUnsigned).toList = numberText n isUnsigned := String.ofList_toList
  cases text : (numberText n isUnsigned).toList with
  | nil =>
    rw [text] at number
    cases number
  | cons c cs =>
    have word_char : isWordChar c = true := isWordChar_of_mem_numberText (text ▸ List.mem_cons_self)
    rw [text] at number shown
    rw [List.cons_append, ← shown]
    exact kindsOf_cons (isBlank_of_isWordChar word_char) (scan_number number h free)

/-! ## Characters -/

/-- Whether the lexer reads a character that a text shows: one that can be seen, or one that has a letter. -/
def IsPlainChar (c : Char) : Prop := (0x20 ≤ c.toNat ∧ c.toNat ≤ 0x7E) ∨ ∃ letter, unescape? letter = some c

theorem isHidden_eq_false (h : 0x20 ≤ c.toNat ∧ c.toNat ≤ 0x7E) : Text.isHidden c = false := by
  have outside : ∀ r ∈ Text.hiddenRanges.toList, r.2 < 0x20 ∨ 0x7E < r.1 := by decide +kernel
  rw [Text.isHidden, Bool.eq_false_iff]
  intro found
  obtain ⟨r, mem, within⟩ := Array.any_eq_true'.1 found
  rw [Bool.and_eq_true, decide_eq_true_eq, decide_eq_true_eq] at within
  rcases outside r (Array.mem_toList_iff.2 mem) with below | above
  · omega
  · omega

theorem unescape?_cases {letter : Char} (h : unescape? letter = some c) : c ∈ ['\n', '\t', '\r', '\\', '\'', '\x00'] := by
  unfold unescape? at h
  split at h
  · cases h; decide
  · cases h; decide
  · cases h; decide
  · cases h; decide
  · cases h; decide
  · cases h; decide
  · cases h

theorem IsPlainChar.toNat_lt (h : IsPlainChar c) : c.toNat < 128 := by
  rcases h with ⟨-, hi⟩ | ⟨letter, h⟩
  · omega
  · have all : ['\n', '\t', '\r', '\\', '\'', '\x00'].all (·.toNat < 128) = true := by decide
    exact of_decide_eq_true (List.all_eq_true.1 all c (unescape?_cases h))

/-- A character between quotes stands with a backslash before its letter, or for itself. -/
theorem toList_quotedChar (h : IsPlainChar c) :
    (∃ letter, (Text.quotedChar c).toList = ['\'', '\\', letter, '\''] ∧ unescape? letter = some c) ∨
      ((Text.quotedChar c).toList = ['\'', c, '\''] ∧ c ≠ '\\' ∧ c ≠ '\'' ∧ 0x20 ≤ c.toNat) := by
  have quoted : (Text.quotedChar c).toList = '\'' :: ((Text.escapedChar '\'' c).toList ++ ['\'']) := by
    rw [Text.quotedChar, String.toList_append, String.toList_append]; rfl
  rw [quoted, Text.escapedChar]
  by_cases null : c = '\x00'
  · rw [if_pos null, null]
    exact .inl ⟨'0', rfl, rfl⟩
  by_cases tab : c = '\t'
  · rw [if_neg null, if_pos tab, tab]
    exact .inl ⟨'t', rfl, rfl⟩
  by_cases cr : c = '\r'
  · rw [if_neg null, if_neg tab, if_pos cr, cr]
    exact .inl ⟨'r', rfl, rfl⟩
  by_cases feed : c = '\n'
  · rw [if_neg null, if_neg tab, if_neg cr, if_pos feed, feed]
    exact .inl ⟨'n', rfl, rfl⟩
  rw [if_neg null, if_neg tab, if_neg cr, if_neg feed]
  by_cases backslash : c = '\\'
  · rw [backslash]
    exact .inl ⟨'\\', rfl, rfl⟩
  by_cases quote : c = '\''
  · rw [quote]
    exact .inl ⟨'\'', rfl, rfl⟩
  have seen : 0x20 ≤ c.toNat ∧ c.toNat ≤ 0x7E := by
    rcases h with seen | ⟨letter, h⟩
    · exact seen
    · have named := unescape?_cases h
      simp [null, tab, cr, feed, backslash, quote] at named
  have plain : (decide (c = '\\') || decide (c = '\'')) = false := by simp [backslash, quote]
  rw [plain, isHidden_eq_false seen, if_neg Bool.false_ne_true, if_neg Bool.false_ne_true]
  refine .inr ⟨?_, backslash, quote, seen.1⟩
  rw [String.toList_singleton]
  rfl

theorem kindsOf_char (h : IsPlainChar c) (rest : List Char) :
    kindsOf ((Text.quotedChar c).toList ++ rest) = .char c :: kindsOf rest := by
  have written : ∃ body, (Text.quotedChar c).toList = '\'' :: (body ++ ['\'']) ∧ IsChar body c := by
    rcases toList_quotedChar h with ⟨letter, text, escape⟩ | ⟨text, backslash, quote, -⟩
    · exact ⟨['\\', letter], text, .escaped (mem_of_unescape? escape)⟩
    · exact ⟨[c], text, .plain h.toNat_lt ⟨quote, backslash⟩⟩
  obtain ⟨body, text, char⟩ := written
  rw [text, List.cons_append, List.append_assoc]
  exact kindsOf_cons (by decide) (scan_char char rest)

/-! ## Texts -/

/-- Whether a text of one line is cut into tokens of some kinds, if what follows ends its last one.  It starts with no `=`, which
    would make a pair with a `!` before it. -/
structure Spells (cs : List Char) (ks : List TokenKind) : Prop where
  oneLine : Text.IsOneLine cs
  opens : ∃ c tail, cs = c :: tail ∧ c ≠ '='
  cut : ∀ rest, IsFree rest → kindsOf (cs ++ rest) = ks ++ kindsOf rest

namespace Spells

variable {a b : List Char} {ks ls : List TokenKind}

theorem word {name : String} (h : IsName name) : Spells name.toList [wordKind name] where
  oneLine := h.isWord.isOneLine
  opens := by
    obtain ⟨c, tail, text, start, -⟩ := h
    refine ⟨c, tail, text, ?_⟩
    rintro rfl
    exact absurd start (by decide)
  cut _ free := kindsOf_word h free

theorem number {n : Nat} (h : n < 0x10000000000000000) (isUnsigned : Bool) :
    Spells (numberText n isUnsigned).toList [.number (numberText n isUnsigned) n isUnsigned] where
  oneLine := by
    intro c hc
    have word := isWordChar_of_mem_numberText hc
    constructor
    · rintro rfl
      exact absurd word (by decide)
    · rintro rfl
      exact absurd word (by decide)
  opens := by
    cases text : (numberText n isUnsigned).toList with
    | nil =>
      rw [toList_numberText, List.append_eq_nil_iff] at text
      exact absurd text.1 Nat.toDigits_ne_nil
    | cons c tail =>
      refine ⟨c, tail, rfl, ?_⟩
      rintro rfl
      exact absurd (isWordChar_of_mem_numberText (text ▸ List.mem_cons_self)) (by decide)
  cut _ free := kindsOf_number h isUnsigned free

theorem char (h : IsPlainChar c) : Spells (Text.quotedChar c).toList [.char c] where
  oneLine := by
    rcases toList_quotedChar h with ⟨letter, text, escape⟩ | ⟨text, -, -, seen⟩
    · rw [text]
      have visible : letter ≠ '\n' ∧ letter ≠ '\r' := by
        constructor
        · rintro rfl
          cases escape
        · rintro rfl
          cases escape
      exact .cons (by decide) (.cons (by decide) (.cons visible (.cons (by decide) nofun)))
    · rw [text]
      have visible : c ≠ '\n' ∧ c ≠ '\r' := by
        constructor
        · rintro rfl
          exact absurd seen (by decide)
        · rintro rfl
          exact absurd seen (by decide)
      exact .cons (by decide) (.cons visible (.cons (by decide) nofun))
  opens := by
    rcases toList_quotedChar h with ⟨letter, text, -⟩ | ⟨text, -⟩
    · exact ⟨'\'', _, text, by decide⟩
    · exact ⟨'\'', _, text, by decide⟩
  cut rest _ := kindsOf_char h rest

/-- `! x` and `- x`, without the space. -/
theorem unary (op : UnaryOp) (h : Spells a ks) : Spells (op.symbol.spelling ++ a) (.symbol op.symbol :: ks) where
  oneLine := (isOneLine_spelling _).append h.oneLine
  opens := by
    cases op with
    | not => exact ⟨'!', a, rfl, by decide⟩
    | neg => exact ⟨'-', a, rfl, by decide⟩
  cut rest free := by
    obtain ⟨c, tail, text, no_equals⟩ := h.opens
    rw [List.append_assoc]
    cases op with
    | not =>
      show kindsOf ('!' :: (a ++ rest)) = .symbol .bang :: (ks ++ kindsOf rest)
      have alone : ∀ d ∈ (a ++ rest).head?, Symbol.ofPair? '!' d = none := by
        intro d hd
        rw [text] at hd
        obtain rfl : c = d := Option.some.inj hd
        refine Option.eq_none_iff_forall_ne_some.2 ?_
        intro t pair
        exact no_equals ((pair_cases pair).2 rfl)
      rw [kindsOf_symbol rfl alone (by decide) (by decide), h.cut rest free]
    | neg =>
      show kindsOf ('-' :: (a ++ rest)) = .symbol .minus :: (ks ++ kindsOf rest)
      rw [kindsOf_mark rfl (by decide) (by decide) (by decide), h.cut rest free]

/-- `(x op y)` -/
theorem binary (op : BinaryOp) (ha : Spells a ks) (hb : Spells b ls) :
    Spells ('(' :: (a ++ ' ' :: (op.symbol.spelling ++ ' ' :: (b ++ [')']))))
      (.symbol .lparen :: (ks ++ .symbol op.symbol :: (ls ++ [.symbol .rparen]))) where
  oneLine := by
    refine .cons (by decide) (ha.oneLine.append (.cons (by decide) ((isOneLine_spelling _).append (.cons (by decide) ?_))))
    exact hb.oneLine.append (by decide)
  opens := ⟨'(', _, rfl, by decide⟩
  cut rest _ := by
    have right := hb.cut (')' :: rest) (isFree_cons (by decide) rest)
    rw [kindsOf_mark rfl (by decide) (by decide) (by decide)] at right
    have left := ha.cut (' ' :: (op.symbol.spelling ++ ' ' :: (b ++ ')' :: rest))) (isFree_cons (by decide) _)
    rw [kindsOf_space, kindsOf_spaced, right] at left
    rw [List.cons_append, kindsOf_mark rfl (by decide) (by decide) (by decide)]
    simp only [List.append_assoc, List.cons_append, List.nil_append, left]

/-- `x[i]` -/
theorem index (ha : Spells a ks) (hb : Spells b ls) :
    Spells (a ++ '[' :: (b ++ [']'])) (ks ++ .symbol .lbracket :: (ls ++ [.symbol .rbracket])) where
  oneLine := ha.oneLine.append (.cons (by decide) (hb.oneLine.append (by decide)))
  opens := by
    obtain ⟨c, tail, text, no_equals⟩ := ha.opens
    exact ⟨c, _, by rw [text, List.cons_append], no_equals⟩
  cut rest _ := by
    have inner := hb.cut (']' :: rest) (isFree_cons (by decide) rest)
    rw [kindsOf_mark rfl (by decide) (by decide) (by decide)] at inner
    have base := ha.cut ('[' :: (b ++ ']' :: rest)) (isFree_cons (by decide) _)
    rw [kindsOf_mark rfl (by decide) (by decide) (by decide), inner] at base
    simp only [List.append_assoc, List.cons_append, List.nil_append, base]

/-- `x.f` -/
theorem field {name : String} (ha : Spells a ks) (h : IsName name) :
    Spells (a ++ '.' :: name.toList) (ks ++ [.symbol .period, wordKind name]) where
  oneLine := ha.oneLine.append (.cons (by decide) (word h).oneLine)
  opens := by
    obtain ⟨c, tail, text, no_equals⟩ := ha.opens
    exact ⟨c, _, by rw [text, List.cons_append], no_equals⟩
  cut rest free := by
    have base := ha.cut ('.' :: (name.toList ++ rest)) (isFree_cons (by decide) _)
    rw [kindsOf_mark rfl (by decide) (by decide) (by decide), kindsOf_word h free] at base
    simp only [List.append_assoc, List.cons_append, List.nil_append, base]

/-- `x@` -/
theorem deref (ha : Spells a ks) : Spells (a ++ ['@']) (ks ++ [.symbol .deref]) where
  oneLine := ha.oneLine.append (by decide)
  opens := by
    obtain ⟨c, tail, text, no_equals⟩ := ha.opens
    exact ⟨c, _, by rw [text, List.cons_append], no_equals⟩
  cut rest _ := by
    have base := ha.cut ('@' :: rest) (isFree_cons (by decide) rest)
    rw [kindsOf_mark rfl (by decide) (by decide) (by decide)] at base
    simp only [List.append_assoc, List.cons_append, List.nil_append, base]

/-- The tokens of a text of one line. -/
theorem kind_tokens (h : Spells a ks) (file : String) : (tokens file a).map Token.kind = ks := by
  obtain ⟨c, tail, text, -⟩ := h.opens
  have line : Text.lines a = [a] := Text.lines_of_isOneLine h.oneLine (text ▸ List.cons_ne_nil c tail)
  have all := h.cut [] isFree_nil
  rw [List.append_nil, kindsOf_nil, List.append_nil] at all
  rw [tokens, line, List.mapIdx_singleton, List.flatten_singleton, tokensOfLine, map_kind_tokensFrom, all]

end Spells

end M32.Lang
