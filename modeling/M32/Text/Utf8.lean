/-
  Text from bytes.

  `ofUtf8?` refuses bytes that are no UTF-8.  `ofUtf8Lossy` puts the replacement character for each byte that starts
  no character, and goes on with the next byte.
-/
namespace M32.Text

/-- The text of some bytes. -/
def ofUtf8? (bytes : ByteArray) : Option (List Char) := (String.fromUTF8? bytes).map String.toList

/-- What stands for a byte that starts no character. -/
def replacement : Char := '\uFFFD'

/-- The characters from byte `i` on, after some others in reverse. -/
def decodeFrom (bytes : ByteArray) (i : Nat) (before : List Char) : List Char :=
  if i < bytes.size then
    match bytes.utf8DecodeChar? i with
    | some c => decodeFrom bytes (i + c.utf8Size) (c :: before)
    | none => decodeFrom bytes (i + 1) (replacement :: before)
  else before.reverse
termination_by bytes.size - i
decreasing_by
  · have := Char.utf8Size_pos c; omega
  · omega

/-- The text of some bytes, whatever they are. -/
def ofUtf8Lossy (bytes : ByteArray) : List Char := decodeFrom bytes 0 []

end M32.Text
