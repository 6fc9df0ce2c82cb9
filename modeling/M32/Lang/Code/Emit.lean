/-
  Producing code piece by piece.

  `Emit α` takes the registers in use and gives a value, the lines that compute it and the registers in use after them,
  or a fault.  One piece after another gives the lines of the first and then those of the second (`bind_eq_ok_iff`),
  so the code of a whole is put together from the code of its parts.
-/
import M32.Lang.Code.Line
import M32.Lang.Code.Registers

namespace M32.Lang

/-- A value, the lines that compute it and the registers in use after them. -/
structure Emitted (α : Type) where
  value : α
  code : List Line
  pool : RegPool

/-- Produces code for the registers in use. -/
def Emit (α : Type) := RegPool → Except Fault (Emitted α)

namespace Emit

variable {α β : Type}

instance : Monad Emit where
  pure a := fun p => .ok ⟨a, [], p⟩
  bind x f := fun p => match x p with
    | .error fault => .error fault
    | .ok a => match f a.value a.pool with
      | .error fault => .error fault
      | .ok b => .ok ⟨b.value, a.code ++ b.code, b.pool⟩

theorem pure_apply (a : α) (p : RegPool) : (pure a : Emit α) p = .ok ⟨a, [], p⟩ := rfl

/-- Two pieces of code in a row. -/
theorem bind_eq_ok_iff (x : Emit α) (f : α → Emit β) (p : RegPool) (r : Emitted β) :
    (x >>= f) p = .ok r ↔
      ∃ a b, x p = .ok a ∧ f a.value a.pool = .ok b ∧ r = ⟨b.value, a.code ++ b.code, b.pool⟩ := by
  simp only [bind]
  cases hx : x p with
  | error fault => simp
  | ok a =>
    cases hf : f a.value a.pool with
    | error fault => simp [hf]
    | ok b => simp [hf, eq_comm]

/-! ## Pieces -/

/-- No code, but a value or a fault. -/
def ofExcept (r : Except Fault α) : Emit α := fun p => r.map fun a => ⟨a, [], p⟩

/-- A fault. -/
def fail (fault : Fault) : Emit α := fun _ => .error fault

/-- Some lines. -/
def lines (code : List Line) : Emit Unit := fun p => .ok ⟨(), code, p⟩

/-- An instruction. -/
def instr (i : Instr) : Emit Unit := lines [.instr i]

/-- A pseudo-instruction, if its operands are permitted. -/
def pseudo (ps : Pseudo) : Emit Unit := fun p => (Line.ofPseudo ps).map fun l => ⟨(), [l], p⟩

/-- A change of the registers in use. -/
def registers (change : RegPool → RegPool) : Emit Unit := fun p => .ok ⟨(), [], change p⟩

/-- A register for an intermediate value. -/
def acquire (fragment : String) : Emit Reg := fun p =>
  match p.acquire? with
  | some (r, p) => .ok ⟨r, [], p⟩
  | none => .error (.registersExhausted fragment)

/-- Gives a register back. -/
def release (r : Reg) : Emit Unit := registers (·.release r)

/-- Uses registers and gives those that were unused. -/
def occupy : List Reg → Emit (List Reg)
  | [] => pure []
  | r :: rs => do
    let wasUnused ← fun p => .ok ⟨(p.occupy r).1, [], (p.occupy r).2⟩
    let taken ← occupy rs
    return if wasUnused then r :: taken else taken

/-- The lines of a piece of code with its value, to be placed elsewhere. -/
def capture (x : Emit α) : Emit (α × List Line) := fun p => (x p).map fun a => ⟨(a.value, a.code), [], a.pool⟩

/-- The lines of a piece of code during which a register is retained. -/
def captureRetaining (r : Reg) (x : Emit Unit) : Emit (List Line) := do
  registers (·.retain r)
  let ((), code) ← capture x
  registers (·.unretain r)
  return code

end Emit

end M32.Lang
