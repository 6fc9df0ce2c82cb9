/-
  Lines that are written anew.

  1. `Gives` is a property of all that a reader may give.  It goes through a reader bind by bind.
  2. A loaded value is one of its type (`Pseudo.isWritten_of_read`), and the operands of an instruction fit their
     fields: no line is read as a statement that would be written as another (`Statement.isWritten_of_read`).
  3. `rewritten?` writes the statement of a line anew, and `read_rewritten` reads it back.  So to write a line anew twice is
     to do so once.

  Labels and jumps to them have no text of their own here: no one writes them but the compiler, line by line.
-/
import M32.Proofs.Assembly.Statement.Written

namespace M32

/-! ## What readers give -/

section Gives

variable {ε α β : Type} {P : α → Prop} {Q : β → Prop}

/-- Whether all that a reader may give has a property. -/
def Gives (P : α → Prop) (x : Except ε α) : Prop := ∀ a, x = .ok a → P a

namespace Gives

theorem error (e : ε) : Gives P (.error e) := nofun

theorem ok {a : α} (h : P a) : Gives P (.ok a : Except ε α) := fun _ ha => by
  cases ha
  exact h

theorem any (x : Except ε α) : Gives (fun _ => True) x := fun _ _ => trivial

theorem bind {x : Except ε α} {f : α → Except ε β} (hx : Gives P x) (hf : ∀ a, P a → Gives Q (f a)) : Gives Q (x >>= f) := by
  cases x with
  | error e => exact error e
  | ok a => exact hf a (hx a rfl)

theorem map {x : Except ε α} {f : α → β} (hx : Gives P x) (hf : ∀ a, P a → Q (f a)) : Gives Q (x.map f) :=
  hx.bind fun a ha => ok (hf a ha)

theorem ite {c : Prop} [Decidable c] {x y : Except ε α} (hx : Gives P x) (hy : Gives P y) : Gives P (if c then x else y) := by
  split
  · exact hx
  · exact hy

end Gives

end Gives

/-! ## Pseudo-instructions -/

theorem Scalar.isValue_of_encode? {ty : Scalar} {cs : List Char} {w : Word} (h : ty.encode? cs = some w) : ty.IsValue w := by
  rintro rfl
  simp only [encode?] at h
  split at h
  · exact .inr (Option.some.inj h).symm
  · split at h
    · exact .inl (Option.some.inj h).symm
    · cases h

namespace Pseudo

theorem gives_readLiteral (value ty : List Char) : Gives (fun (w, s) => Scalar.IsValue s w) (readLiteral value ty) := by
  unfold readLiteral
  split
  · exact .error _
  · next s _ =>
    split
    · exact .error _
    · next w hw => exact .ok (Scalar.isValue_of_encode? hw)

theorem gives_readLoad (cs lhs rhs : List Char) : Gives IsWritten (readLoad cs lhs rhs) := by
  unfold readLoad
  split
  · refine .ite (.error _) ?_
    split
    · refine (Gives.any _).bind fun reg _ => ?_
      split
      · split
        · exact (gives_readLiteral _ _).bind fun (w, s) hw => .ok hw
        · exact .error _
      · exact .error _
    · exact .error _
  · exact .error _

theorem isWritten_of_ofRegs? {k : PseudoKind} {rs : List Reg} {p : Pseudo} (h : ofRegs? k rs = some p) : p.IsWritten := by
  unfold ofRegs? at h
  split at h <;> cases h <;> trivial

theorem gives_readInvocation (cs : List Char) : Gives IsWritten (readInvocation cs) := by
  unfold readInvocation
  split
  · refine .ite (.error _) ?_
    split
    · refine .ite (.error _) (.ite (.error _) ((Gives.any _).bind fun regs _ => ?_))
      split
      · next p hp => exact .ok (isWritten_of_ofRegs? hp)
      · exact .error _
    · exact .error _
  · exact .error _

/-- A pseudo-instruction that is read is one that reads back: the literal of a load is a value of its type. -/
theorem isWritten_of_read {cs : List Char} {p : Pseudo} (h : read cs = .ok p) : p.IsWritten := by
  have gives : Gives IsWritten (read cs) := by
    unfold read
    split
    · exact gives_readLoad _ _ _
    · exact gives_readInvocation cs
  exact gives p h

end Pseudo

/-! ## Instructions -/

namespace Assembly

namespace Operand

theorem gives_unsigned (bits : Nat) (slot : Op.Slot) (cs : List Char) : Gives (· < 1 <<< bits) (unsigned bits slot cs) := by
  unfold unsigned
  split
  · next v _ =>
    split
    · next fits =>
      refine .ok ?_
      rw [fitsUnsigned, Bool.and_eq_true, decide_eq_true_iff, decide_eq_true_iff] at fits
      have lt : v < ((1 <<< bits : Nat) : Int) := fits.2
      omega
    · exact .error _
  · exact .error _

theorem gives_amount (cs : List Char) : Gives (fun v : UInt8 => v.toNat < 32) (amount cs) := by
  refine (gives_unsigned 5 .amount cs).map fun n (hn : n < 32) => ?_
  rw [UInt8.toNat_ofNat', Nat.mod_eq_of_lt (by omega)]
  exact hn

theorem gives_index (cs : List Char) : Gives (fun v : Word => v.toNat < Instr.indexLimit) (index cs) := by
  refine (gives_unsigned 26 .index cs).map fun n (hn : n < 0x4000000) => ?_
  rw [UInt32.toNat_ofNat', Nat.mod_eq_of_lt (by omega)]
  exact hn

end Operand

namespace Statement

/-- Whether a statement is written as what it is. -/
def IsWritten : Statement → Prop
  | instr i => i.IsLegal
  | pseudo p => p.IsWritten
  | label _ | jump .. => True

theorem gives_readJump (link : Bool) (cs : List Char) : Gives IsWritten (readJump link cs) := by
  unfold readJump
  split
  · exact (Operand.gives_index cs).map fun _ h => h
  · exact .ite (.ok trivial) (.error _)

theorem gives_readOperands (op : Op) (args : List (List Char)) : Gives IsWritten (readOperands op args) := by
  unfold readOperands
  split
  case h_1 =>
    -- the amount comes last
    refine (Gives.any _).bind fun _ _ => (Gives.any _).bind fun _ _ => ?_
    exact (Operand.gives_amount _).bind fun _ h => .ok h
  case h_12 => exact gives_readJump _ _
  case h_19 => exact .error _
  all_goals repeat first | exact .ok trivial | refine (Gives.any _).bind fun _ _ => ?_

theorem gives_readWords (ws : List (List Char)) : Gives IsWritten (readWords ws) := by
  unfold readWords
  split
  · exact .error _
  · split
    · exact gives_readOperands _ _
    · exact .error _

/-- A statement that is read is written as what it is. -/
theorem isWritten_of_read {line : List Char} {s : Statement} (h : read line = .ok (some s)) : s.IsWritten := by
  have gives : Gives (fun s? => ∀ s ∈ s?, s.IsWritten) (read line) := by
    unfold read
    refine .ite (.ok nofun) ?_
    split
    · split
      · next p hp =>
        refine .ok ?_
        rintro _ ⟨⟩
        exact Pseudo.isWritten_of_read hp
      · exact .error _
    · split
      · refine .ite (.ok ?_) (.error _)
        rintro _ ⟨⟩
        trivial
      · refine (gives_readWords _).map fun s hs => ?_
        rintro _ ⟨⟩
        exact hs
  exact gives _ h s rfl

/-! ## Lines written anew -/

/-- The text of a statement that is no label and no jump to one. -/
def text? : Statement → Option String
  | instr i => some i.text
  | pseudo p => some p.text
  | label _ | jump .. => none

/-- A line written anew, if it holds an instruction or a pseudo-instruction. -/
def rewritten? (line : List Char) : Option String :=
  match read line with
  | .ok (some s) => s.text?
  | _ => none

/-- The text of a statement reads back as that statement. -/
theorem read_text {s : Statement} (h : s.IsWritten) {t : String} (ht : s.text? = some t) : read t.toList = .ok (some s) := by
  cases s with
  | instr i =>
    cases ht
    exact @read_instr i h [] nofun
  | pseudo p =>
    cases ht
    exact @read_pseudo p h [] nofun
  | label | jump => cases ht

/-- What is written is read back.
    1. Every instruction that fits its fields is read back from its text.
    2. So is every pseudo-instruction that some text is read as, with its registers and with the word and type of a load.
    3. A line written anew holds what the line held, and written anew again it stays as it is. -/
theorem read_rewritten :
    (∀ i : Instr, i.IsLegal → read i.text.toList = .ok (some (.instr i))) ∧
    (∀ (cs : List Char) (p : Pseudo), Pseudo.read cs = .ok p → read p.text.toList = .ok (some (.pseudo p))) ∧
    (∀ (line : List Char) (t : String), rewritten? line = some t → read t.toList = read line ∧ rewritten? t.toList = some t) := by
  refine ⟨?_, ?_, ?_⟩
  · intro i legal
    exact read_text (s := .instr i) legal rfl
  · intro cs p h
    exact read_text (s := .pseudo p) (Pseudo.isWritten_of_read h) rfl
  · intro line t h
    rw [rewritten?] at h
    split at h
    · next s hs =>
      have back := read_text (isWritten_of_read hs) h
      refine ⟨back.trans hs.symm, ?_⟩
      rw [rewritten?, back]
      exact h
    · cases h

/-- A shift, a load of a quoted character and one of the word for `true`. -/
theorem read_rewritten_lines :
    (Instr.sll .sig .zero 31).IsLegal ∧ read (Instr.sll .sig .zero 31).text.toList = .ok (some (.instr (.sll .sig .zero 31))) ∧
      Pseudo.read "gpr(sig) = enc('a', char)".toList = .ok (.gpr .sig 97 .char) ∧
      (Pseudo.gpr .sig 97 .char).text = "macro: gpr(1) = enc(97, char)" ∧
      read (Pseudo.gpr .sig 97 .char).text.toList = .ok (some (.pseudo (.gpr .sig 97 .char))) ∧
      rewritten? " macro:gpr(r1)=enc( 1,bool )".toList = some "macro: gpr(1) = enc(true, bool)" ∧
      rewritten? "macro: gpr(1) = enc(true, bool)".toList = some "macro: gpr(1) = enc(true, bool)" :=
  have legal : (Instr.sll .sig .zero 31).IsLegal := by decide
  have load : Pseudo.read "gpr(sig) = enc('a', char)".toList = .ok (.gpr .sig 97 .char) := rfl
  have line : rewritten? " macro:gpr(r1)=enc( 1,bool )".toList = some "macro: gpr(1) = enc(true, bool)" := by decide +kernel
  ⟨legal, read_rewritten.1 _ legal, load, by decide +kernel, read_rewritten.2.1 _ _ load, line, (read_rewritten.2.2 _ _ line).2⟩

end Statement

end Assembly

end M32
