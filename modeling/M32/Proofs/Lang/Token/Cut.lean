/-
  Lines cut into tokens: nothing is lost, and nothing is added.

  1. `Piece` is a token in its line, with the blanks before it.  `Cut` says that a line is pieces and blanks after them, each piece
     lexed before what follows it.
  2. No token starts in the column of one before it (`columns_ascend`).
  3. A line is cut into pieces, and its tokens are theirs (`pieces_of_tokensFrom`): each has the kind of its piece, and the column
     where the text of the piece starts.
  4. `tokensOfLine_cut` puts these together.
-/
import M32.Proofs.Lang.Token.Spelling

namespace M32.Lang

variable {file : String} {line col : Nat} {c : Char} {cs : List Char}

/-! ## Pieces of a line -/

/-- A token of a line with the blanks before it. -/
structure Piece where
  gap : List Char
  text : List Char
  kind : TokenKind

namespace Piece

/-- All characters of a piece. -/
def chars (p : Piece) : List Char := p.gap ++ p.text

/-- The tokens of pieces after what stands `before` them in their line.  The column of each is the number of bytes before its
    text. -/
def tokens (file : String) (line : Nat) (before : List Char) : List Piece → List Token
  | [] => []
  | p :: ps => ⟨p.kind, ⟨file, line, (String.ofList (before ++ p.gap)).utf8ByteSize⟩⟩ :: tokens file line (before ++ p.chars) ps

end Piece

/-- Whether a line is cut into pieces.  The text of each starts with no blank and is lexed before the rest of the line. -/
inductive Cut : List Char → List Piece → Prop where
  | blanks {tail : List Char} (blank : ∀ c ∈ tail, Text.isBlank c = true) : Cut tail []
  | piece {gap text rest : List Char} {c : Char} {kind : TokenKind} {ps : List Piece}
      (blank : ∀ c ∈ gap, Text.isBlank c = true) (visible : Text.isBlank c = false)
      (lexed : Lexed (c :: text) rest kind) (cut : Cut rest ps) : Cut (gap ++ (c :: text ++ rest)) (⟨gap, c :: text, kind⟩ :: ps)

/-- A blank more before the first piece. -/
def indent (c : Char) : List Piece → List Piece
  | [] => []
  | p :: ps => ⟨c :: p.gap, p.text, p.kind⟩ :: ps

theorem Cut.indent {ps : List Piece} (blank : Text.isBlank c = true) (h : Cut cs ps) : Cut (c :: cs) (indent c ps) := by
  cases h with
  | blanks all => exact .blanks (List.forall_mem_cons.2 ⟨blank, all⟩)
  | piece all visible lexed cut => exact .piece (List.forall_mem_cons.2 ⟨blank, all⟩) visible lexed cut

/-! ## Columns -/

theorem utf8ByteSize_ofList (cs : List Char) : (String.ofList cs).utf8ByteSize = byteLength cs := by
  induction cs with
  | nil => rfl
  | cons c cs ih =>
    rw [← List.singleton_append, String.ofList_append, String.utf8ByteSize_append, ih, List.singleton_append, byteLength]
    simp

theorem byteLength_append (cs ds : List Char) : byteLength (cs ++ ds) = byteLength cs + byteLength ds := by
  induction cs with
  | nil => exact (Nat.zero_add _).symm
  | cons c cs ih => rw [List.cons_append, byteLength, byteLength, ih, Nat.add_assoc]

theorem byteLength_pos (h : cs ≠ []) : 0 < byteLength cs := by
  cases cs with
  | nil => exact absurd rfl h
  | cons c cs =>
    have := c.utf8Size_pos
    rw [byteLength]
    omega

theorem le_col_of_mem {t : Token} (h : t ∈ tokensFrom file line col cs) : col ≤ t.pos.col := by
  fun_induction tokensFrom file line col cs with
  | case1 => cases h
  | case2 col c cs blank ih => exact Nat.le_of_add_right_le (ih h)
  | case3 col c cs visible ih =>
    rcases List.mem_cons.1 h with rfl | h
    · exact Nat.le_refl _
    · exact Nat.le_of_add_right_le (ih h)

/-- A token starts after the one before it. -/
theorem columns_ascend (file : String) (line col : Nat) (cs : List Char) :
    ((tokensFrom file line col cs).map (·.pos.col)).Pairwise (· < ·) := by
  fun_induction tokensFrom file line col cs with
  | case1 => exact .nil
  | case2 col c cs blank ih => exact ih
  | case3 col c cs visible ih =>
    refine .cons ?_ ih
    intro n hn
    obtain ⟨t, ht, rfl⟩ := List.mem_map.1 hn
    have after := le_col_of_mem ht
    have := byteLength_pos (scan_text_ne_nil c cs)
    show col < t.pos.col
    omega

/-! ## Tokens of pieces -/

theorem tokens_indent (before : List Char) (ps : List Piece) :
    Piece.tokens file line before (indent c ps) = Piece.tokens file line (before ++ [c]) ps := by
  cases ps with
  | nil => rfl
  | cons p ps => simp only [indent, Piece.tokens, Piece.chars, List.append_assoc, List.cons_append, List.nil_append]

/-- A line is cut into pieces, and its tokens are theirs. -/
theorem pieces_of_tokensFrom {before : List Char} (h : col = byteLength before) :
    ∃ ps, Cut cs ps ∧ tokensFrom file line col cs = Piece.tokens file line before ps := by
  fun_induction tokensFrom file line col cs generalizing before with
  | case1 => exact ⟨[], .blanks (List.forall_mem_nil _), rfl⟩
  | case2 col c cs blank ih =>
    have after : col + c.utf8Size = byteLength (before ++ [c]) := by rw [byteLength_append, h]; rfl
    obtain ⟨ps, cut, same⟩ := ih after
    exact ⟨indent c ps, cut.indent blank, same.trans (tokens_indent before ps).symm⟩
  | case3 col c cs visible ih =>
    have after : col + byteLength (scan c cs).text = byteLength (before ++ (scan c cs).text) := by rw [byteLength_append, h]
    obtain ⟨ps, cut, same⟩ := ih after
    have lexed := lexed_scan c cs
    have whole := scan_append c cs
    cases htext : (scan c cs).text with
    | nil => exact absurd htext (scan_text_ne_nil c cs)
    | cons c' text =>
      rw [htext] at lexed whole same
      obtain ⟨rfl, -⟩ : c' = c ∧ text ++ (scan c cs).rest = cs := List.cons.inj whole
      refine ⟨⟨[], c' :: text, (scan c' cs).kind⟩ :: ps, ?_, ?_⟩
      · have piece : Cut ([] ++ (c' :: text ++ (scan c' cs).rest)) (⟨[], c' :: text, (scan c' cs).kind⟩ :: ps) :=
          .piece (List.forall_mem_nil _) (Bool.eq_false_iff.2 visible) lexed cut
        rwa [List.nil_append, whole] at piece
      · rw [same, Piece.tokens, List.append_nil, utf8ByteSize_ofList, ← h]
        rfl

/-- The tokens of a line leave nothing out and add nothing.  Every line is cut into pieces, and has the token of each of them:
    its kind by the rules of the lexer, and for its column the number of bytes before its first character.  Nothing but blanks
    stands between pieces and after the last, and the columns ascend. -/
theorem tokensOfLine_cut (file : String) (line : Nat) (cs : List Char) :
    (∃ ps, Cut cs ps ∧ tokensOfLine file line cs = Piece.tokens file line [] ps) ∧
    ((tokensOfLine file line cs).map (·.pos.col)).Pairwise (· < ·) :=
  ⟨pieces_of_tokensFrom rfl, columns_ascend file line 0 cs⟩

end M32.Lang
