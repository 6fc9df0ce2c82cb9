/-
  Images that are written, read back and loaded.

  1. The bytes of a word are the bytes that it was put together from (`Word.bytes_ofBytes`), so whole words of bytes are
     read and written back as they were.
  2. Binary digits: what `Text.digits` writes is read as the number, as far as the digits go (`digitsFrom?_digits`).
     Thirty-two of them are a word, on a line of its own.
  3. `Image.Holds` says which words a file holds, by the numbers that its bytes or digits are.
  4. Loading puts word `k` at `addressOf k`, ends the image behind the last one, and leaves the rest of memory alone.
-/
import M32.Assembly.Image
import M32.Proofs.Literal.Columns
import M32.Proofs.Machine.Loading

namespace M32

/-! ## Bytes -/

namespace Word

/-- The bits of a word of four bytes, the last byte the lowest. -/
theorem getLsbD_ofBytes (a b c d : UInt8) (i : Nat) : (ofBytes a b c d).toBitVec.getLsbD i =
    if i < 8 then d.toBitVec.getLsbD i else if i < 16 then c.toBitVec.getLsbD (i - 8)
    else if i < 24 then b.toBitVec.getLsbD (i - 16) else if i < 32 then a.toBitVec.getLsbD (i - 24) else false := by
  simp only [ofBytes, UInt32.toBitVec_or, UInt32.toBitVec_shiftLeft, UInt8.toBitVec_toUInt32]
  simp [BitVec.getLsbD_or, BitVec.getLsbD_shiftLeft]
  grind

theorem getLsbD_byteAt (w : Word) {i j : Nat} (hj : j < 32) (hi : i < 8) :
    (w.byteAt (UInt32.ofNat j)).toBitVec.getLsbD i = w.toBitVec.getLsbD (j + i) := by
  rw [byteAt, UInt32.toBitVec_toUInt8, UInt32.toBitVec_shiftRight]
  simp [hi]
  rw [Nat.mod_eq_of_lt hj]

/-- The byte at bit `j` of a word is the one with the bits from there on. -/
theorem byteAt_eq {w : Word} {x : UInt8} {j : Nat} (hj : j < 32)
    (bits : ∀ i < 8, w.toBitVec.getLsbD (j + i) = x.toBitVec.getLsbD i) : w.byteAt (UInt32.ofNat j) = x := by
  apply UInt8.eq_of_toBitVec_eq
  apply BitVec.eq_of_getLsbD_eq
  intro i hi
  rw [getLsbD_byteAt w hj hi, bits i hi]

theorem bytes_ofBytes (a b c d : UInt8) : (ofBytes a b c d).bytes = [a, b, c, d] := by
  have first : (ofBytes a b c d).byteAt 24 = a := by
    refine byteAt_eq (j := 24) (by omega) ?_
    intro i hi
    rw [getLsbD_ofBytes]
    grind
  have second : (ofBytes a b c d).byteAt 16 = b := by
    refine byteAt_eq (j := 16) (by omega) ?_
    intro i hi
    rw [getLsbD_ofBytes]
    grind
  have third : (ofBytes a b c d).byteAt 8 = c := by
    refine byteAt_eq (j := 8) (by omega) ?_
    intro i hi
    rw [getLsbD_ofBytes]
    grind
  have last : (ofBytes a b c d).byteAt 0 = d := by
    refine byteAt_eq (j := 0) (by omega) ?_
    intro i hi
    rw [getLsbD_ofBytes]
    grind
  rw [bytes, first, second, third, last]

end Word

namespace Image

theorem length_bytes (words : List Word) : (bytes words).length = 4 * words.length := by
  induction words with
  | nil => rfl
  | cons w ws ih =>
    rw [bytes, List.flatMap_cons, List.length_append, List.length_cons]
    show 4 + (bytes ws).length = _
    omega

theorem ofBytes_bytes (words : List Word) : ofBytes (bytes words) = .ok words := by
  have whole : (bytes words).length % 4 = 0 := by
    rw [length_bytes]
    exact Nat.mul_mod_right 4 _
  rw [ofBytes, if_pos whole, wordsOf_bytes]

/-- Four bytes at a time, as `wordsOf` reads them. -/
theorem bytes_wordsOf {bs : List UInt8} (whole : bs.length % 4 = 0) : bytes (wordsOf bs) = bs := by
  induction bs using wordsOf.induct with
  | case1 a b c d rest ih =>
    simp only [List.length_cons] at whole
    have rest_whole := ih (by omega)
    rw [bytes] at rest_whole
    rw [wordsOf, bytes, List.flatMap_cons, Word.bytes_ofBytes, rest_whole]; rfl
  | case2 bs short =>
    -- fewer than four bytes, and a multiple of four
    rcases bs with _ | ⟨a, _ | ⟨b, _ | ⟨c, _ | ⟨d, rest⟩⟩⟩⟩
    · rfl
    · cases whole
    · cases whole
    · cases whole
    · exact absurd rfl (short a b c d rest)

end Image

/-! ## Binary digits -/

theorem digitValue?_two {d : Nat} (hd : d < 2) : digitValue? 2 (Text.digitChar d) = some d := by
  rcases Nat.lt_succ_iff_lt_or_eq.1 hd with h | rfl
  · obtain rfl := Nat.lt_one_iff.1 h
    decide
  · decide

/-- Digits that continue a number shift it to the left, and are read as what they were written for. -/
theorem digitsFrom?_digits (start width n : Nat) :
    digitsFrom? 2 start (Text.digits 2 width n) = some ((start <<< width) + n % (1 <<< width)) := by
  induction width generalizing start n with
  | zero =>
    rw [Text.digits, digitsFrom?, Nat.shiftLeft_zero, Nat.shiftLeft_zero, Nat.mod_one, Nat.add_zero]
  | succ width ih =>
    have low : n % 2 < 2 := Nat.mod_lt n (by omega)
    have split : n % (2 * 1 <<< width) = n % 2 + 2 * (n / 2 % (1 <<< width)) := Nat.mod_mul
    rw [Text.digits, digitsFrom?_append, ih, Option.bind_some, digitsFrom?, digitValue?_two low, Option.bind_some,
      digitsFrom?, Nat.shiftLeft_succ, Nat.shiftLeft_succ, split]
    congr 1
    omega

theorem isBlank_digitChar {d : Nat} (hd : d < 2) : Text.isBlank (Text.digitChar d) = false := by
  rcases Nat.lt_succ_iff_lt_or_eq.1 hd with h | rfl
  · obtain rfl := Nat.lt_one_iff.1 h
    decide
  · decide

theorem isBlank_of_mem_digits {width n : Nat} {c : Char} (h : c ∈ Text.digits 2 width n) : Text.isBlank c = false := by
  induction width generalizing n with
  | zero => cases h
  | succ width ih =>
    rw [Text.digits] at h
    rcases List.mem_append.1 h with front | last
    · exact ih front
    · rw [List.mem_singleton.1 last]
      exact isBlank_digitChar (Nat.mod_lt n (by omega))

theorem toList_bitString (w : Word) : (bitString w).toList = Text.digits 2 32 w.toNat := String.toList_ofList

theorem isWord_bitString (w : Word) : Text.IsWord (bitString w).toList := by
  rw [toList_bitString]
  constructor
  · intro none
    have length := Text.length_digits 2 32 w.toNat
    rw [none] at length
    cases length
  · intro c hc
    exact isBlank_of_mem_digits hc

theorem ofBitString?_bitString (w : Word) : ofBitString? (bitString w).toList = some w := by
  have length : (Text.digits 2 32 w.toNat).length = 32 := Text.length_digits 2 32 w.toNat
  have some_digits : (Text.digits 2 32 w.toNat).isEmpty = false := by
    rw [List.isEmpty_eq_false_iff_exists_mem]
    exact List.exists_mem_of_length_pos (by omega)
  have value : (0 <<< 32) + w.toNat % (1 <<< 32) = w.toNat := by
    rw [Nat.zero_shiftLeft, Nat.zero_add]
    exact Nat.mod_eq_of_lt w.toNat_lt
  rw [ofBitString?, Text.trim_of_isTrim (isWord_bitString w).isTrim, toList_bitString]
  simp only [length, digitsValue?, some_digits, digitsFrom?_digits, value]
  simp

/-! ## Binary text -/

namespace Image

theorem toList_text (words : List Word) :
    (text words).toList = (words.map fun w => (bitString w).toList).flatMap (· ++ ['\n']) := by
  induction words with
  | nil => rfl
  | cons w ws ih =>
    have rest : (String.join (ws.map fun w => bitString w ++ "\n")).toList = _ := ih
    rw [text, List.map_cons, String.join_cons, String.toList_append, rest, String.toList_append, List.map_cons,
      List.flatMap_cons]
    rfl

theorem ofLines_bitStrings (line : Nat) (words : List Word) :
    ofLines line (words.map fun w => (bitString w).toList) = .ok words := by
  induction words generalizing line with
  | nil => rfl
  | cons w ws ih =>
    have word := isWord_bitString w
    have visible : (Text.trim (bitString w).toList).isEmpty = false := by
      rw [Text.trim_of_isTrim word.isTrim]
      exact List.isEmpty_eq_false_iff.2 word.1
    rw [List.map_cons, ofLines, visible, ofBitString?_bitString, ih]
    rfl

theorem ofText_text (words : List Word) : ofText (text words).toList = .ok words := by
  have one_line : ∀ l ∈ words.map fun w => (bitString w).toList, Text.IsOneLine l := by
    intro l hl
    obtain ⟨w, -, rfl⟩ := List.mem_map.1 hl
    exact (isWord_bitString w).isOneLine
  rw [ofText, toList_text, Text.lines_terminated one_line, ofLines_bitStrings]

end Image

/-! ## What a file holds -/

namespace Image

/-- Whether bytes are words one after the other, each in four bytes with the highest first. -/
inductive AreBytes : List Word → List UInt8 → Prop where
  | nil : AreBytes [] []
  | cons {w : Word} {ws : List Word} {a b c d : UInt8} {bs : List UInt8}
      (value : ((a.toNat * 256 + b.toNat) * 256 + c.toNat) * 256 + d.toNat = w.toNat) (rest : AreBytes ws bs) :
      AreBytes (w :: ws) (a :: b :: c :: d :: bs)

/-- Whether a text is words, one a line, each in thirty-two binary digits. -/
inductive AreDigits : List Word → List Char → Prop where
  | nil : AreDigits [] []
  | cons {w : Word} {ws : List Word} {row : String} {cs : List Char} (digits : IsNumeral 2 32 w.toNat row) (rest : AreDigits ws cs) :
      AreDigits (w :: ws) (row.toList ++ '\n' :: cs)

/-- Whether a file holds words, as binary text or as bytes. -/
def Holds (asText : Bool) (words : List Word) (file : ByteArray) : Prop :=
  if asText then ∃ text : String, file = text.toUTF8 ∧ AreDigits words text.toList else AreBytes words file.data.toList

end Image

/-! ## Loading -/

namespace Machine

variable {s t : State} {words : List Word}

/-- What a machine is that has loaded some words. -/
theorem load_eq_ok (h : s.load words = .ok t) : 4 * words.length ≤ s.memory.size ∧ 4 * words.length < fullSize ∧
    t = { s.storeAll (addressOf 0) words with imageEnd := addressOf words.length } := by
  rw [State.load] at h
  split at h
  · cases h
  · rename_i room
    simp only [Bool.or_eq_true, decide_eq_true_eq, not_or] at room
    obtain ⟨fits, small⟩ := room
    cases h
    exact ⟨by omega, by omega, rfl⟩

/-- An address that is not aligned, or outside of memory, has no word. -/
theorem peek?_eq (s : State) (a : Word) :
    s.peek? a = if a.toNat % 4 = 0 ∧ a.toNat + 4 ≤ s.memory.size then some (s.memory.read a) else none := by
  have aligned : a % 4 = 0 ↔ a.toNat % 4 = 0 := by
    rw [← UInt32.toNat_inj, UInt32.toNat_mod]; rfl
  simp only [State.peek?, Memory.contains, Bool.and_eq_true, decide_eq_true_eq, aligned]

theorem peek?_load (h : s.load words = .ok t) {k : Nat} (hk : k < words.length) : t.peek? (addressOf k) = words[k]? := by
  obtain ⟨fits, small, rfl⟩ := load_eq_ok h
  have size := (rest_storeAll s (addressOf 0) words).1
  have address := toNat_addressOf (k := k) (by omega)
  have word : words[k]? = some words[k] := List.getElem?_eq_getElem hk
  have stored : (s.storeAll (addressOf 0) words).memory.read (addressOf (0 + k)) = words[k] :=
    read_storeAll (by omega) word
  rw [Nat.zero_add] at stored
  rw [peek?_eq, if_pos, word, ← stored]
  rw [address, size]
  omega

theorem peek?_load_of_ne (h : s.load words = .ok t) {a : Word} (outside : ∀ k < words.length, a ≠ addressOf k) :
    t.peek? a = s.peek? a := by
  obtain ⟨fits, small, rfl⟩ := load_eq_ok h
  have size := (rest_storeAll s (addressOf 0) words).1
  have same (ha : a.toNat % 4 = 0) : (s.storeAll (addressOf 0) words).memory.read a = s.memory.read a := by
    refine read_storeAll_of_outside (by omega) ha ?_
    intro k hk
    rw [Nat.zero_add]
    exact (outside k hk).symm
  rw [peek?_eq, peek?_eq, size]
  split
  · rename_i inside
    exact congrArg some (same inside.1)
  · rfl

end Machine

/-! ## Round trips -/

/-- Words come back from the bytes and from the text that are written of them, whole words of bytes come back from the
    words that are read of them, and a machine that loads words holds them from address 0 on, with the image ending
    behind them and all else as before. -/
theorem images_load_back :
    (∀ words : List Word, Image.ofBytes (Image.bytes words) = .ok words ∧ Image.ofText (Image.text words).toList = .ok words) ∧
    (∀ bs : List UInt8, bs.length % 4 = 0 → ∃ words, Image.ofBytes bs = .ok words ∧ Image.bytes words = bs) ∧
    ∀ (s t : Machine.State) (words : List Word), s.load words = .ok t →
      (∀ k < words.length, t.peek? (Machine.addressOf k) = words[k]?) ∧
      t.imageEnd.toNat = 4 * words.length ∧
      ∀ a : Word, (∀ k < words.length, a ≠ Machine.addressOf k) → t.peek? a = s.peek? a := by
  refine ⟨?_, ?_, ?_⟩
  · intro words
    exact ⟨Image.ofBytes_bytes words, Image.ofText_text words⟩
  · intro bs whole
    exact ⟨Image.wordsOf bs, if_pos whole, Image.bytes_wordsOf whole⟩
  · intro s t words h
    refine ⟨fun k hk => Machine.peek?_load h hk, ?_, fun a outside => Machine.peek?_load_of_ne h outside⟩
    obtain ⟨-, small, rfl⟩ := Machine.load_eq_ok h
    exact Machine.toNat_addressOf small

/-- Two words, written and loaded into memory for four. -/
theorem two_words_load_back : ∃ t, (Machine.State.ofSize 16).load [5, 0xFF0000FF] = .ok t ∧
    Image.ofBytes (Image.bytes [5, 0xFF0000FF]) = .ok [5, 0xFF0000FF] ∧
    Image.ofText (Image.text [5, 0xFF0000FF]).toList = .ok [5, 0xFF0000FF] ∧
    (∃ words, Image.ofBytes [1, 2, 3, 4] = .ok words ∧ Image.bytes words = [1, 2, 3, 4]) ∧
    t.peek? 4 = some 0xFF0000FF ∧ t.imageEnd.toNat = 8 ∧ t.peek? 12 = some 0 := by
  obtain ⟨round, whole, loads⟩ := images_load_back
  obtain ⟨t, loaded⟩ : ∃ t, (Machine.State.ofSize 16).load [5, 0xFF0000FF] = .ok t := ⟨_, rfl⟩
  obtain ⟨words, last, rest⟩ := loads _ t _ loaded
  refine ⟨t, loaded, (round _).1, (round _).2, whole [1, 2, 3, 4] (by decide), words 1 (by decide), last, ?_⟩
  rw [rest 12 (by decide)]
  rfl

end M32
