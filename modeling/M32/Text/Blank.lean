/-
  Blank characters, and what is read around them: trimmed text, words and lines.

  1. `isBlank` is the Unicode property White_Space, twenty-five characters in ten ranges.
  2. `trim`, `trimStart` and `trimEnd` drop blanks at the ends of a text.
  3. `words` are the runs without blanks, in order: none is empty (`words_ne_nil`) and none holds a blank
     (`words_not_blank`).
  4. `lines` cuts a text at line feeds.  A carriage return before a line feed belongs to the break,
     one anywhere else is text, and an empty rest after the last break is no line.

  Text is read as `List Char`, so that each reader is a recursion on its input.
-/
namespace M32.Text

/-! ## Blanks -/

/-- The characters of the Unicode property White_Space. -/
def isBlank (c : Char) : Bool :=
  let n := c.toNat
  (0x9 ≤ n && n ≤ 0xD) || n == 0x20 || n == 0x85 || n == 0xA0 || n == 0x1680 || (0x2000 ≤ n && n ≤ 0x200A)
    || n == 0x2028 || n == 0x2029 || n == 0x202F || n == 0x205F || n == 0x3000

/-- Text without the blanks it starts with. -/
def trimStart (cs : List Char) : List Char := cs.dropWhile isBlank

/-- Text without the blanks it ends with. -/
def trimEnd (cs : List Char) : List Char := (cs.reverse.dropWhile isBlank).reverse

/-- Text without blanks at either end. -/
def trim (cs : List Char) : List Char := trimEnd (trimStart cs)

/-! ## Words -/

/-- The runs of characters that are not blank, in order. -/
def words : List Char → List (List Char)
  | [] => []
  | [c] => if isBlank c then [] else [[c]]
  | c :: d :: cs =>
    if isBlank c then words (d :: cs)
    else if isBlank d then [c] :: words (d :: cs)
    else match words (d :: cs) with
      | [] => [[c]]
      | w :: ws => (c :: w) :: ws

theorem words_ne_nil (cs : List Char) : ∀ w ∈ words cs, w ≠ [] := by
  fun_induction words cs <;> simp_all

theorem words_not_blank (cs : List Char) : ∀ w ∈ words cs, ∀ c ∈ w, isBlank c = false := by
  fun_induction words cs <;> grind

/-! ## Lines -/

/-- Cuts a text at every line feed.  There is always a last piece, empty after a final line feed. -/
def pieces (cs : List Char) : List (List Char) :=
  cs.foldr (fun c ps => if c = '\n' then [] :: ps else (c :: ps.headD []) :: ps.tail) [[]]

/-- A piece without the carriage return before its line feed. -/
def dropReturn (p : List Char) : List Char :=
  if p.getLast? = some '\r' then p.dropLast else p

/-- The pieces as lines: those that a line feed ends lose their carriage return, and an empty last piece
    is no line. -/
def linesOfPieces : List (List Char) → List (List Char)
  | [] => []
  | [p] => if p.isEmpty then [] else [p]
  | p :: ps => dropReturn p :: linesOfPieces ps

/-- The lines of a text. -/
def lines (cs : List Char) : List (List Char) := linesOfPieces (pieces cs)

example : lines "a\r\nb\rc\n\nd\r".toList = ["a", "b\rc", "", "d\r"].map String.toList := by decide

example : lines "a\n".toList = [['a']] ∧ lines [] = [] := by decide

example : words " a\tbc  d ".toList = ["a", "bc", "d"].map String.toList := by decide

end M32.Text
