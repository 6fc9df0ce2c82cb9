/-
  What the sequence of zeros stores.

  1. `Room s a n` says that a machine can store `n` words from an address on, none of them in its image.
  2. `Cleared base count s j t` is the invariant of the loop: after `j` rounds the first `j` words are zero and all others as
     they were, the base is `j` words further and the count `j` lower.  `Cleared.round` is one round, of four instructions, and
     `Cleared.rounds` all of them.
  3. `zero_clears`: the same of the sequence as a whole, wherever it is placed.  `reaches_zero` is for an image that it stands
     in.
-/
import M32.Proofs.Machine.Quiet
import M32.Proofs.Pseudo.Product

namespace M32.Machine

/-! ## Words and registers -/

theorem toNat_sub_one {w : Word} (h : 0 < w.toNat) : (w + Word.ofImm (-1)).toNat = w.toNat - 1 := by
  have lt := w.toNat_lt
  rw [UInt32.toNat_add, show (Word.ofImm (-1)).toNat = 0xFFFFFFFF from rfl]; omega

/-- The address that lies some bytes further, if the address space does not end before. -/
theorem toNat_add_ofNat {w : Word} {n : Nat} (h : w.toNat + n < fullSize) : (w + UInt32.ofNat n).toNat = w.toNat + n := by
  simp only [fullSize] at h
  rw [UInt32.toNat_add, UInt32.toNat_ofNat']; omega

/-- Special registers that read the same are the same. -/
theorem State.sregs_ext {s t : State} (h : t.sreg = s.sreg) : t.sregs = s.sregs := by
  have numbered : ∀ n : Fin 8, ∃ q ∈ SReg.all, q.num = n := by decide
  refine Vector.ext fun n hn => ?_
  obtain ⟨q, -, hq⟩ := numbered ⟨n, hn⟩
  have same := congrFun h q
  rwa [State.sreg, State.sreg, hq] at same

/-! ## Rounds -/

/-- Whether a machine can store some words from an address on, none of them in its image. -/
structure Room (s : State) (a : Word) (n : Nat) : Prop where
  aligned : a.toNat % 4 = 0
  inside : a.toNat + 4 * n ≤ s.memory.size
  fits : a.toNat + 4 * n ≤ fullSize
  behind : s.imageEnd.toNat ≤ a.toNat

/-- What a machine is like after `j` rounds. -/
structure Cleared (base count : Reg) (s : State) (j : Nat) (t : State) : Prop extends SameImage s t where
  runs : Runs (4 * j) s t
  moved : t.reg base = s.reg base + UInt32.ofNat (4 * j)
  left : (t.reg count).toNat + j = (s.reg count).toNat
  only : Only [base, count] s.reg t.reg
  sregs : t.sreg = s.sreg
  words : ∀ a : Word, a.toNat % 4 = 0 → t.memory.read a =
    if (s.reg base).toNat ≤ a.toNat ∧ a.toNat < (s.reg base).toNat + 4 * j then 0 else s.memory.read a

section

variable {code : List Instr} {place k n j : Nat} {base count : Reg} {s t : State}

theorem operands_zero (h : (Pseudo.zero base count).fault? = none) : base ≠ count ∧ base ≠ .zero ∧ count ≠ .zero := by
  simp only [Pseudo.fault?, Option.or_eq_none_iff] at h
  obtain ⟨same, zero⟩ := h
  refine ⟨?_, nonzero_of_zeroFault? zero (by simp), nonzero_of_zeroFault? zero (by simp)⟩
  rintro rfl
  simp [Pseudo.sameFault?] at same

namespace Cleared

theorem refl (s : State) : Cleared base count s 0 s where
  toSameImage := .refl s
  runs := .refl s
  moved := (UInt32.add_zero _).symm
  left := rfl
  only := .refl _ _
  sregs := rfl
  words a _ := by rw [if_neg (by omega)]

/-- One round: a word more is zero.  The branch at its end goes back as long as words are left. -/
theorem round (hf : (Pseudo.zero base count).fault? = none) (hc : Lies code k (Pseudo.zero base count).instrs)
    (room : Room s (s.reg base) n) (words : (s.reg count).toNat = n) (h : Inside code place k t) (c : Cleared base count s j t)
    (more : j < n) :
    ∃ u, Inside code place (if j + 1 < n then k else k + 4) u ∧ Cleared base count s (j + 1) u := by
  obtain ⟨distinct, base0, count0⟩ := operands_zero hf
  have here : t.reg base + Word.ofImm 0 = t.reg base := UInt32.add_zero _
  obtain ⟨aligned, inside, fits, behind⟩ := room
  have start : (t.reg base).toNat = (s.reg base).toNat + 4 * j := by rw [c.moved, toNat_add_ofNat (by omega)]
  have left : (t.reg count).toNat = n - j := by have := c.left; omega
  -- the word at the base is cleared
  obtain ⟨t1, g1, h1, same1, regs1, sregs1, memory1⟩ := h.step_store (hc.get (j := 0) rfl) (by
    rw [here]
    exact ⟨⟨by omega, by rw [c.size]; omega⟩, by rw [c.imageEnd]; omega⟩)
  rw [here, h.zero] at memory1
  -- both registers move
  obtain ⟨t2, q2, h2, regs2⟩ := quiet_straight (c := [.addi base base 4, .addi count count (-1)]) h1 (hc.part 1 ⟨_, rfl⟩) rfl
  have next : t2.reg base = s.reg base + UInt32.ofNat (4 * (j + 1)) := by
    rw [regs2, setReg_of_ne distinct, setReg_self base0, regs1, Nat.mul_add, UInt32.ofNat_add, ← UInt32.add_assoc, ← c.moved]; rfl
  have fewer : (t2.reg count).toNat = n - (j + 1) := by
    rw [regs2, setReg_self count0]
    show (setReg t1.reg base _ count + Word.ofImm (-1)).toNat = _
    rw [setReg_of_ne distinct.symm, regs1, toNat_sub_one (by omega)]; omega
  -- the loop goes on as long as the count is not zero
  obtain ⟨t3, q3, h3, regs3⟩ := quiet_branch (l := if j + 1 < n then k else k + 4) h2 (hc.get (j := 3) rfl) (by
    rw [h2.zero]
    by_cases last : j + 1 < n
    · have some_left : t2.reg count ≠ 0 := fun done => by
        rw [done] at fewer
        have zero : (0 : Word).toNat = 0 := rfl
        omega
      rw [if_pos last, show PairTest.ne.holds (t2.reg count) 0 = true from bne_iff_ne.2 some_left, if_pos rfl]
      show (k : Int) = (k + 3 : Nat) + (-3)
      omega
    · have none_left : t2.reg count = 0 := UInt32.toNat_inj.1 (fewer.trans (by show _ = 0; omega))
      rw [if_neg last, none_left]; rfl)
  have quiet : Quiet _ (place + (k + 4)) _ _ _ :=
    q2.trans q3 (by omega) (Nat.le_refl _) (by simp only [List.length_cons, List.length_nil]; omega)
  have all := c.runs.trans (g1.runs.trans quiet.runs)
  refine ⟨t3, h3, ⟨c.toSameImage.trans (same1.trans (.of_memory quiet.same.2.2.1 quiet.memory)), all, ?_, ?_, ?_, ?_, ?_⟩⟩
  · rw [regs3, next]
  · rw [regs3, fewer]; omega
  · rw [regs3, regs2, regs1]
    exact (c.only.set (by simp) _).set (by simp) _
  · rw [quiet.same.2.1, sregs1, c.sregs]
  · intro a ha
    rw [quiet.memory, memory1, Memory.read_write _ (by omega) ha, c.words a ha]
    by_cases first : t.reg base = a
    · rw [if_pos first, if_pos (by rw [← first]; omega)]
    · have apart : (t.reg base).toNat ≠ a.toNat := fun he => first (UInt32.toNat_inj.1 he)
      rw [if_neg first]
      by_cases before : (s.reg base).toNat ≤ a.toNat ∧ a.toNat < (s.reg base).toNat + 4 * j
      · rw [if_pos before, if_pos (by omega)]
      · rw [if_neg before, if_neg (by omega)]

/-- All rounds. -/
theorem rounds (hf : (Pseudo.zero base count).fault? = none) (hc : Lies code k (Pseudo.zero base count).instrs)
    (room : Room s (s.reg base) n) (words : (s.reg count).toNat = n) (h : Inside code place k t) (c : Cleared base count s j t)
    (more : j < n) : ∃ u, Inside code place (k + 4) u ∧ Cleared base count s n u := by
  obtain ⟨d, rfl⟩ : ∃ d, n = j + d + 1 := ⟨n - j - 1, by omega⟩
  -- on the words that are left after this round
  induction d generalizing j t with
  | zero =>
    obtain ⟨u, hu, cu⟩ := c.round hf hc room words h more
    rw [if_neg (by omega)] at hu
    exact ⟨u, hu, cu⟩
  | succ d ih =>
    obtain ⟨u, hu, cu⟩ := c.round hf hc room words h more
    rw [if_pos (by omega)] at hu
    rw [show j + (d + 1) + 1 = j + 1 + d + 1 by omega] at room words ⊢
    exact ih hu cu room words (by omega)

end Cleared

/-- Wherever a permitted sequence of zeros stands: if there is room for as many words as the count says, at least one, then
    four instructions for each of them lead to the instruction after the sequence.  These words are zero then and all others as
    they were, the base lies behind them, the count is zero, and no other register has changed. -/
theorem zero_clears (permitted : (Pseudo.zero base count).expand = .ok code) (h : Inside code place 0 s)
    (words : (s.reg count).toNat = n) (some_words : 1 ≤ n) (room : Room s (s.reg base) n) :
    ∃ t, Runs (4 * n) s t ∧ Inside code place code.length t ∧ SameImage s t ∧
      (∀ a : Word, a.toNat % 4 = 0 → t.memory.read a =
        if (s.reg base).toNat ≤ a.toNat ∧ a.toNat < (s.reg base).toNat + 4 * n then 0 else s.memory.read a) ∧
      t.reg base = s.reg base + UInt32.ofNat (4 * n) ∧ t.reg count = 0 ∧
      (∀ r, r ≠ base → r ≠ count → t.reg r = s.reg r) ∧ t.sreg = s.sreg := by
  obtain ⟨hf, rfl⟩ := expand_eq_ok permitted
  obtain ⟨t, ht, c⟩ := Cleared.rounds hf (.self _) room words h (.refl s) some_words
  rw [Nat.zero_add] at ht
  refine ⟨t, c.runs, ht, c.toSameImage, c.words, c.moved, ?_, ?_, c.sregs⟩
  · apply UInt32.toNat_inj.1
    have := c.left
    show _ = 0
    omega
  · intro r other other'
    exact c.only r (by simp [other, other'])

/-- The last two words that can be addressed are cleared.  The base is then past the end of the address space, at zero. -/
theorem zero_clears_to_end :
    ∃ s t, Inside (Pseudo.zero ⟨1⟩ ⟨2⟩).instrs 5 0 s ∧ s.reg ⟨1⟩ = 0xFFFFFFF8 ∧ s.reg ⟨2⟩ = 2 ∧ s.reg ⟨3⟩ = 7 ∧
      s.memory.size = fullSize ∧ Runs 8 s t ∧ Inside (Pseudo.zero ⟨1⟩ ⟨2⟩).instrs 5 4 t ∧ t.memory.read 0xFFFFFFFC = 0 ∧
      t.reg ⟨1⟩ = 0 ∧ t.reg ⟨3⟩ = 7 := by
  let regs : Reg → Word := fun r => if r = ⟨1⟩ then 0xFFFFFFF8 else if r = ⟨2⟩ then 2 else if r = ⟨3⟩ then 7 else 0
  have fits : 4 * (5 + (Pseudo.zero ⟨1⟩ ⟨2⟩).instrs.length) ≤ fullSize := by decide
  obtain ⟨s, inside, contents, size, imageEnd⟩ := exists_at_end (Pseudo.zero ⟨1⟩ ⟨2⟩).instrs (by decide) 5 regs rfl fits (by decide)
  have start : s.reg ⟨1⟩ = 0xFFFFFFF8 := by rw [contents]; rfl
  have words : s.reg ⟨2⟩ = 2 := by rw [contents]; rfl
  have kept : s.reg ⟨3⟩ = 7 := by rw [contents]; rfl
  have room : Room s (s.reg ⟨1⟩) 2 := by
    rw [start]
    exact ⟨by decide, by rw [size]; decide, by decide, by rw [imageEnd]; decide⟩
  obtain ⟨t, runs, at_end, -, memory, base, -, others, -⟩ := zero_clears rfl inside (by rw [words]; rfl) (by decide) room
  refine ⟨s, t, inside, start, words, kept, size, runs, at_end, ?_, ?_, ?_⟩
  · rw [memory _ (by decide), start]; rfl
  · rw [base, start]; rfl
  · rw [others _ (by decide) (by decide), kept]

/-- The same in an image that the sequence stands in. -/
theorem reaches_zero {image : List Instr} (h : At image k s) (hc : Lies image k (Pseudo.zero base count).instrs)
    (hf : (Pseudo.zero base count).fault? = none) (words : (s.reg count).toNat = n) (some_words : 0 < n)
    (room : Room s (s.reg base) n) :
    ∃ t, Reaches image s (k + 4) t ∧ Only [base, count] s.reg t.reg ∧ ∀ a : Word, a.toNat % 4 = 0 → t.memory.read a =
      if (s.reg base).toNat ≤ a.toNat ∧ a.toNat < (s.reg base).toNat + 4 * n then 0 else s.memory.read a := by
  obtain ⟨t, ht, c⟩ := Cleared.rounds hf hc room words h.inside (.refl s) some_words
  exact ⟨t, ⟨⟨_, c.runs⟩, ht.at_image h c.imageEnd, c.size, State.sregs_ext c.sregs⟩, c.only, c.words⟩

end

end M32.Machine
