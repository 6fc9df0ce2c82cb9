/-
  The thirty-two general registers and the eight special ones.

  1. `Reg` is a register number below 32.  Nine registers have a name; register 0 always reads zero.
  2. `Reg.read?` accepts a name in any ASCII case, `sig` for register 1, and a decimal number that
     may stand after `$` or `r`.  `Reg.text` writes the name if there is one (`read?_text`).
  3. `SReg` is a special register, read by name in any ASCII case or by an integer literal.
-/
import M32.Literal

namespace M32

/-! ## General registers -/

/-- A general register. -/
structure Reg where
  num : Fin 32
  deriving DecidableEq, Repr

namespace Reg

theorem num_lt (r : Reg) : r.num.val < 32 := r.num.isLt

/-- Setting the entry of a register in a table changes this entry only. -/
theorem get_set {α : Type} (v : Vector α 32) (r s : Reg) (a : α) :
    (v.set r.num.val a r.num_lt).get s.num = if r = s then a else v.get s.num := by
  show (v.set r.num.val a r.num_lt)[s.num.val] = if r = s then a else v[s.num.val]
  rw [Vector.getElem_set]
  have same : r.num.val = s.num.val ↔ r = s := ⟨fun h => by cases r; cases s; simp_all [Fin.ext_iff], fun h => h ▸ rfl⟩
  by_cases h : r = s
  · rw [if_pos h, if_pos (same.2 h)]
  · rw [if_neg h, if_neg (mt same.1 h)]

/-- The register that always reads zero. -/
def zero : Reg := ⟨0⟩

/-- The register that holds the code of a signal. -/
def sig : Reg := ⟨1⟩

/-- The first of four registers that pseudo-instructions and checks may overwrite. -/
def k0 : Reg := ⟨24⟩

@[inherit_doc k0] def k1 : Reg := ⟨25⟩
@[inherit_doc k0] def k2 : Reg := ⟨26⟩
@[inherit_doc k0] def k3 : Reg := ⟨27⟩

/-- The base of the global variables. -/
def bp : Reg := ⟨28⟩

/-- The stack pointer. -/
def sp : Reg := ⟨29⟩

/-- The heap pointer. -/
def hp : Reg := ⟨30⟩

/-- The return address. -/
def ra : Reg := ⟨31⟩

/-- All registers in the order of their numbers. -/
def all : List Reg := (List.finRange 32).map Reg.mk

/-- The register of a number below 32. -/
def ofNat? (n : Nat) : Option Reg := if h : n < 32 then some ⟨⟨n, h⟩⟩ else none

/-- The register in the low five bits of a number. -/
def ofBits (n : Nat) : Reg := ⟨Fin.ofNat 32 n⟩

/-- The number of a register as a byte. -/
def toByte (r : Reg) : UInt8 := UInt8.ofNat r.num.val

/-- Whether pseudo-instructions and checks may overwrite a register. -/
def isScratch (r : Reg) : Bool := 24 ≤ r.num.val && r.num.val ≤ 27

/-! ### Text -/

/-- Named registers. -/
def names : List (String × Reg) :=
  [("zero", zero), ("k0", k0), ("k1", k1), ("k2", k2), ("k3", k3), ("bp", bp), ("sp", sp), ("hp", hp), ("ra", ra)]

/-- The name of a register, if it has one. -/
def name? (r : Reg) : Option String := (names.find? (·.2 = r)).map (·.1)

/-- A register as it is printed: its name, or else its number. -/
def text (r : Reg) : String := r.name?.getD (toString r.num.val)

/-- Digits of a register number without the mark that may stand before them. -/
def dropMark : List Char → List Char
  | '$' :: cs => cs
  | 'r' :: cs => cs
  | cs => cs

/-- The register that a name or number means. -/
def read? (cs : List Char) : Option Reg :=
  let cs := Text.trim cs
  let lower := String.ofList (cs.map Char.toLower)
  match names.lookup lower with
  | some r => some r
  | none =>
    if lower = "sig" then some sig
    else
      let ds := dropMark cs
      if ds.all Char.isDigit then (digitsValue? 10 ds).bind ofNat? else none

theorem read?_text (r : Reg) : read? r.text.toList = some r := by
  obtain ⟨r⟩ := r
  revert r
  decide +kernel

theorem ofNat?_eq_some_iff {n : Nat} {r : Reg} : ofNat? n = some r ↔ r.num.val = n := by
  unfold ofNat?
  split
  · exact ⟨fun h => by cases h; rfl, fun h => by cases r; subst h; rfl⟩
  · exact ⟨fun h => by simp at h, fun h => by omega⟩

end Reg

/-! ## Special registers -/

/-- A special register. -/
inductive SReg where
  | epc | cause | status | badVAddr | ptbr | pcb | timer | scratch
  deriving DecidableEq, Repr

namespace SReg

/-- All special registers in the order of their numbers. -/
def all : List SReg := [epc, cause, status, badVAddr, ptbr, pcb, timer, scratch]

/-- The special registers that a control block keeps, in the order of their slots. -/
def saved : List SReg := [epc, cause, status, badVAddr, ptbr, timer]

/-- The number of a special register. -/
def num : SReg → Fin 8
  | epc => 0
  | cause => 1
  | status => 2
  | badVAddr => 3
  | ptbr => 4
  | pcb => 5
  | timer => 6
  | scratch => 7

/-- The name of a special register. -/
def text : SReg → String
  | epc => "epc"
  | cause => "cause"
  | status => "status"
  | badVAddr => "badvaddr"
  | ptbr => "ptbr"
  | pcb => "pcb"
  | timer => "timer"
  | scratch => "scratch"

/-- The special register of a number below 8. -/
def ofNat? : Nat → Option SReg
  | 0 => some epc
  | 1 => some cause
  | 2 => some status
  | 3 => some badVAddr
  | 4 => some ptbr
  | 5 => some pcb
  | 6 => some timer
  | 7 => some scratch
  | _ => none

/-- The special register that a name or a literal means. -/
def read? (cs : List Char) : Option SReg :=
  let lower := String.ofList ((Text.trim cs).map Char.toLower)
  match all.find? (·.text = lower) with
  | some s => some s
  | none => (Literal.read? cs).bind fun v => if 0 ≤ v then ofNat? v.toNat else none

theorem read?_text (s : SReg) : read? s.text.toList = some s := by cases s <;> decide +kernel

theorem ofNat?_num (s : SReg) : ofNat? s.num.val = some s := by cases s <;> rfl

theorem num_of_ofNat? {n : Nat} {s : SReg} (h : ofNat? n = some s) : s.num.val = n := by
  unfold ofNat? at h
  split at h <;> cases h <;> rfl

end SReg

end M32
