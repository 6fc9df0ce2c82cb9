/-
  Cutting source text into tokens.

  1. `scan` takes one token off a text that does not start with a blank.  `Scanned` is its kind, the characters it
     takes and those it leaves; together these are the text (`scan_append`), and a token takes at least one.
  2. `tokensOfLine` cuts a line.  Blanks between tokens are dropped, a comment takes the rest of its line, and
     a character that starts no token is a token of its own kind.
  3. `tokens` cuts a text line by line; no token runs over lines.
-/
import M32.Lang.Token
import M32.Literal

namespace M32.Lang

/-! ## One token -/

/-- A token off the front of a text: what it is, its characters, and the text after it. -/
structure Scanned where
  kind : TokenKind
  text : List Char
  rest : List Char
  deriving DecidableEq, Repr

/-- Characters of which words and numbers consist. -/
def isWordChar (c : Char) : Bool := c == '_' || c.isAlphanum

/-- Characters that start a word. -/
def isWordStart (c : Char) : Bool := c == '_' || c.isAlpha

/-- Digits of a base, and the separator between them. -/
def isDigitOf (base : Nat) (c : Char) : Bool := c == '_' || (digitValue? base c).isSome

/-- The character of a letter after a backslash. -/
def unescape? : Char → Option Char
  | 'n' => some '\n'
  | 't' => some '\t'
  | 'r' => some '\r'
  | '\\' => some '\\'
  | '\'' => some '\''
  | '0' => some '\x00'
  | _ => none

/-- A word: a keyword or a name. -/
def scanWord (first : Char) (cs : List Char) : Scanned :=
  let text := first :: cs.takeWhile isWordChar
  let word := String.ofList text
  let kind := match Keyword.ofSpelling? word with
    | some k => .keyword k
    | none => .ident word
  ⟨kind, text, cs.dropWhile isWordChar⟩

/-- The mark of a base after the first digit, the base and what follows. -/
def splitHexMark (first : Char) (cs : List Char) : List Char × Nat × List Char :=
  if first = '0' then
    match cs with
    | 'x' :: rest => (['x'], 16, rest)
    | 'X' :: rest => (['X'], 16, rest)
    | _ => ([], 10, cs)
  else ([], 10, cs)

/-- The mark of an unsigned number and what follows. -/
def splitUnsignedMark : List Char → List Char × List Char
  | 'u' :: rest => (['u'], rest)
  | rest => ([], rest)

/-- The value of the digits of a number, if it has 64 bits. -/
def numberValue? (base : Nat) (digits : List Char) : Option Nat :=
  (digitsValue? base (digits.filter (· ≠ '_'))).filter (· < 0x10000000000000000)

/-- A number.  Word characters right after it spoil it. -/
def scanNumber (first : Char) (cs : List Char) : Scanned :=
  let (mark, base, body) := splitHexMark first cs
  let digits := body.takeWhile (isDigitOf base)
  let (suffix, after) := splitUnsignedMark (body.dropWhile (isDigitOf base))
  let spoil := after.takeWhile isWordChar
  let text := first :: (mark ++ (digits ++ (suffix ++ spoil)))
  let value? := numberValue? base (if mark.isEmpty then first :: digits else digits)
  let kind := match value? with
    | some value =>
      if spoil.isEmpty then .number (String.ofList text) value (!suffix.isEmpty) else .invalid (String.ofList text)
    | none => .invalid (String.ofList text)
  ⟨kind, text, after.dropWhile isWordChar⟩

/-- The quote that closes a character and what follows. -/
def splitQuote : List Char → List Char × List Char
  | '\'' :: rest => (['\''], rest)
  | rest => ([], rest)

/-- A character between quotes, from what stands after the opening quote: its characters `body`, the character
    `value?` they mean, and what follows them.  `shown` is how an error shows the token. -/
def closeChar (shown body : List Char) (value? : Option Char) (cs : List Char) : Scanned :=
  let (close, rest) := splitQuote cs
  let kind := match value? with
    | some c => if c.toNat < 128 && !close.isEmpty then .char c else .invalid (String.ofList shown)
    | none => .invalid (String.ofList shown)
  ⟨kind, '\'' :: (body ++ close), rest⟩

/-- A character literal after its opening quote. -/
def scanChar : List Char → Scanned
  | '\\' :: c :: cs => closeChar ['\'', '\\', c] ['\\', c] (unescape? c) cs
  | ['\\'] => closeChar ['\'', '\\'] ['\\'] none []
  | '\'' :: cs => closeChar ['\''] ['\''] none cs
  | c :: cs => closeChar ['\'', c] [c] (some c) cs
  | [] => closeChar ['\''] [] none []

/-- A token that is no symbol of two characters and no comment. -/
def scanSingle (c : Char) (cs : List Char) : Scanned :=
  match Symbol.ofChar? c with
  | some s => ⟨.symbol s, [c], cs⟩
  | none =>
    if c.isDigit then scanNumber c cs
    else if c = '\'' then scanChar cs
    else if isWordStart c then scanWord c cs
    else ⟨.invalid (String.singleton c), [c], cs⟩

/-- The first token of a text that does not start with a blank. -/
def scan (c : Char) (cs : List Char) : Scanned :=
  match cs with
  | [] => scanSingle c []
  | d :: rest =>
    match Symbol.ofPair? c d with
    | some s => ⟨.symbol s, [c, d], rest⟩
    | none =>
      if c = '/' && d = '/' then ⟨.comment (String.ofList (Text.trimStart rest)), c :: d :: rest, []⟩
      else scanSingle c cs

/-! ### What a token takes and leaves -/

theorem splitHexMark_append (first : Char) (cs : List Char) : (splitHexMark first cs).1 ++ (splitHexMark first cs).2.2 = cs := by
  unfold splitHexMark; split
  · split <;> rfl
  · rfl

theorem splitUnsignedMark_append (cs : List Char) : (splitUnsignedMark cs).1 ++ (splitUnsignedMark cs).2 = cs := by
  unfold splitUnsignedMark; split <;> rfl

theorem splitQuote_append (cs : List Char) : (splitQuote cs).1 ++ (splitQuote cs).2 = cs := by
  unfold splitQuote; split <;> rfl

theorem scanNumber_append (c : Char) (cs : List Char) : (scanNumber c cs).text ++ (scanNumber c cs).rest = c :: cs := by
  simp only [scanNumber, List.cons_append, List.append_assoc, List.takeWhile_append_dropWhile,
    splitUnsignedMark_append, splitHexMark_append]

theorem closeChar_append (shown body : List Char) (value? : Option Char) (cs : List Char) :
    (closeChar shown body value? cs).text ++ (closeChar shown body value? cs).rest = '\'' :: (body ++ cs) := by
  simp only [closeChar, List.cons_append, List.append_assoc, splitQuote_append]

theorem scanChar_append (cs : List Char) : (scanChar cs).text ++ (scanChar cs).rest = '\'' :: cs := by
  unfold scanChar; split <;> simp [closeChar_append]

theorem scanSingle_append (c : Char) (cs : List Char) : (scanSingle c cs).text ++ (scanSingle c cs).rest = c :: cs := by
  unfold scanSingle
  split
  · rfl
  · split
    · exact scanNumber_append c cs
    · split
      · next h => subst h; exact scanChar_append cs
      · split
        · simp [scanWord]
        · rfl

/-- A token and what it leaves are the text. -/
theorem scan_append (c : Char) (cs : List Char) : (scan c cs).text ++ (scan c cs).rest = c :: cs := by
  unfold scan
  split
  · exact scanSingle_append c []
  · split
    · rfl
    · split
      · simp
      · exact scanSingle_append _ _

theorem scan_text_ne_nil (c : Char) (cs : List Char) : (scan c cs).text ≠ [] := by
  have single : (scanSingle c cs).text ≠ [] := by
    unfold scanSingle
    split
    · simp
    · split
      · simp [scanNumber]
      · split
        · unfold scanChar; split <;> simp [closeChar]
        · split <;> simp [scanWord]
  unfold scan
  split
  · exact single
  · split
    · simp
    · split
      · simp
      · exact single

theorem length_scan_rest_lt (c : Char) (cs : List Char) : (scan c cs).rest.length < (c :: cs).length := by
  rw [← scan_append c cs, List.length_append]
  have := List.length_pos_iff.2 (scan_text_ne_nil c cs)
  omega

/-! ## Lines and texts -/

/-- The number of bytes of a text. -/
def byteLength : List Char → Nat
  | [] => 0
  | c :: cs => c.utf8Size + byteLength cs

/-- The tokens of the rest of a line that starts in column `col`. -/
def tokensFrom (file : String) (line col : Nat) : List Char → List Token
  | [] => []
  | c :: cs =>
    if Text.isBlank c then tokensFrom file line (col + c.utf8Size) cs
    else
      ⟨(scan c cs).kind, ⟨file, line, col⟩⟩
        :: tokensFrom file line (col + byteLength (scan c cs).text) (scan c cs).rest
termination_by cs => cs.length
decreasing_by
  · simp
  · exact length_scan_rest_lt c cs

/-- The tokens of a line. -/
def tokensOfLine (file : String) (line : Nat) (cs : List Char) : List Token := tokensFrom file line 0 cs

/-- The tokens of a text. -/
def tokens (file : String) (cs : List Char) : List Token :=
  ((Text.lines cs).mapIdx fun line text => tokensOfLine file line text).flatten

end M32.Lang
