/-
  Registers for intermediate values.

  1. `RegPool` knows which registers are used and which of these are retained.  `acquire?` hands out the lowest
     unused register of `RegPool.lent`.
  2. A retained register stays used at the end of a statement and is not released before `unretain`.
     So used registers are a superset of the retained ones in every pool that starts empty.
-/
import M32.Register

namespace M32.Lang

/-- Registers in use. -/
structure RegPool where
  used : Vector Bool 32 := .replicate 32 false
  retained : Vector Bool 32 := .replicate 32 false
  deriving DecidableEq, Repr

namespace RegPool

/-- The registers that are handed out, in this order. -/
def lent : List Reg := Reg.all.filter fun r => 1 ≤ r.num.val && r.num.val ≤ 23

/-- Whether a register is used. -/
def isUsed (p : RegPool) (r : Reg) : Bool := p.used.get r.num

/-- Whether a register is retained. -/
def isRetained (p : RegPool) (r : Reg) : Bool := p.retained.get r.num

/-- Makes a register used or unused. -/
def setUsed (p : RegPool) (r : Reg) (b : Bool) : RegPool := { p with used := p.used.set r.num.val b r.num_lt }

/-- Makes a register retained or not. -/
def setRetained (p : RegPool) (r : Reg) (b : Bool) : RegPool := { p with retained := p.retained.set r.num.val b r.num_lt }

/-- Uses the lowest register that can be handed out. -/
def acquire? (p : RegPool) : Option (Reg × RegPool) :=
  (lent.find? fun r => !p.isUsed r).map fun r => (r, p.setUsed r true)

/-- Gives a register back, unless it is retained. -/
def release (p : RegPool) (r : Reg) : RegPool := if p.isRetained r then p else p.setUsed r false

/-- Uses a register and says whether it was unused. -/
def occupy (p : RegPool) (r : Reg) : Bool × RegPool := (!p.isUsed r, p.setUsed r true)

/-- Uses a register over the ends of statements. -/
def retain (p : RegPool) (r : Reg) : RegPool := (p.setUsed r true).setRetained r true

/-- Gives a retained register back. -/
def unretain (p : RegPool) (r : Reg) : RegPool := (p.setUsed r false).setRetained r false

/-- Ends a statement: all registers but the retained ones are given back. -/
def endStatement (p : RegPool) : RegPool := { p with used := p.retained }

/-- The used registers. -/
def usedRegs (p : RegPool) : List Reg := Reg.all.filter p.isUsed

/-! ## What the operations do to each register -/

theorem isUsed_setUsed (p : RegPool) (r s : Reg) (b : Bool) :
    (p.setUsed r b).isUsed s = if r = s then b else p.isUsed s := Reg.get_set p.used r s b

theorem isRetained_setUsed (p : RegPool) (r s : Reg) (b : Bool) : (p.setUsed r b).isRetained s = p.isRetained s := rfl

theorem isRetained_setRetained (p : RegPool) (r s : Reg) (b : Bool) :
    (p.setRetained r b).isRetained s = if r = s then b else p.isRetained s := Reg.get_set p.retained r s b

theorem isUsed_setRetained (p : RegPool) (r s : Reg) (b : Bool) : (p.setRetained r b).isUsed s = p.isUsed s := rfl

end RegPool

end M32.Lang
