/-
  Images: programs as bytes and as binary text.

  Bytes hold a word after another, the highest byte first.  Text holds a word a line in thirty-two binary digits;
  lines of blanks are skipped when it is read.  `ofBytes` and `ofText` read what `bytes` and `text` write.
-/
import M32.Fields
import M32.Text.Blank

namespace M32.Image

/-! ## Writing -/

/-- The bytes of some words. -/
def bytes (words : List Word) : List UInt8 := words.flatMap Word.bytes

/-- The binary text of some words. -/
def text (words : List Word) : String := String.join (words.map fun w => bitString w ++ "\n")

/-! ## Reading -/

/-- Why an image cannot be read. -/
inductive Error where
  | truncated (size : Nat)
  | badWord (line : Nat)
  deriving DecidableEq, Repr

/-- The wording of a failure to read an image. -/
def Error.message : Error → String
  | truncated size => "Image is " ++ toString size ++ " bytes, not a whole number of words"
  | badWord line => "Line " ++ toString line ++ " is not a 32-digit binary word"

/-- The words of some bytes, the last one to three bytes left out. -/
def wordsOf : List UInt8 → List Word
  | a :: b :: c :: d :: rest => Word.ofBytes a b c d :: wordsOf rest
  | _ => []

/-- The words of an image in bytes. -/
def ofBytes (bs : List UInt8) : Except Error (List Word) :=
  if bs.length % 4 = 0 then .ok (wordsOf bs) else .error (.truncated bs.length)

/-- The words of some lines, the first of which has the number `line`. -/
def ofLines (line : Nat) : List (List Char) → Except Error (List Word)
  | [] => .ok []
  | cs :: rest =>
    if (Text.trim cs).isEmpty then ofLines (line + 1) rest
    else match ofBitString? cs with
      | some w => (ofLines (line + 1) rest).map (w :: ·)
      | none => .error (.badWord line)

/-- The words of an image in binary text. -/
def ofText (cs : List Char) : Except Error (List Word) := ofLines 1 (Text.lines cs)

theorem wordsOf_bytes (words : List Word) : wordsOf (bytes words) = words := by
  induction words with
  | nil => rfl
  | cons w ws ih => simpa [bytes, Word.bytes, wordsOf, Word.ofBytes_bytes] using ih

end M32.Image
