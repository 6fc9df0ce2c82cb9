/-
  Numbers and cells of a fixed width: decimal, hexadecimal and binary digits, and padding to a column.

  1. `digits` writes a number in a base with at least a given number of digits, letters in upper case.
  2. `padRight` and `padLeft` fill a cell with blanks.  A text that is too long stays whole.
-/
namespace M32.Text

/-! ## Digits -/

/-- The digit of a value below thirty-six, letters in upper case. -/
def digitChar (n : Nat) : Char :=
  if n < 10 then Char.ofNat (48 + n) else Char.ofNat (55 + n)

/-- The last `width` digits of `n` in base `base`, the first digit first. -/
def digits (base : Nat) : (width n : Nat) → List Char
  | 0, _ => []
  | width + 1, n => digits base width (n / base) ++ [digitChar (n % base)]

/-- A number in hexadecimal with at least `width` digits. -/
def hex (width n : Nat) : String := String.ofList (digits 16 (max width (n.log2 / 4 + 1)) n)

/-- A number in binary with exactly `width` digits, higher bits dropped. -/
def binary (width n : Nat) : String := String.ofList (digits 2 width n)

theorem length_digits (base width n : Nat) : (digits base width n).length = width := by
  induction width generalizing n with
  | zero => rfl
  | succ w ih => simp [digits, ih]

example : hex 8 0xAB = "000000AB" ∧ hex 1 0 = "0" ∧ hex 2 0x123 = "123" ∧ binary 4 5 = "0101" := by decide

/-! ## Cells -/

/-- Blanks to the right up to `width` characters. -/
def padRight (width : Nat) (s : String) : String := s ++ String.ofList (List.replicate (width - s.length) ' ')

/-- Blanks to the left up to `width` characters. -/
def padLeft (width : Nat) (s : String) : String := String.ofList (List.replicate (width - s.length) ' ') ++ s

/-- A rule of `width` copies of a character. -/
def rule (width : Nat) (c : Char) : String := String.ofList (List.replicate width c)

/-- Texts with a separator between neighbours. -/
def join (separator : String) (parts : List String) : String := separator.intercalate parts

example : padRight 4 "ab" = "ab  " ∧ padLeft 4 "ab" = "  ab" ∧ padLeft 1 "ab" = "ab" := by decide

end M32.Text
