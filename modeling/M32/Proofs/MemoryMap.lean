/-
  Regions of memory.

  A program takes four of them: its code from address 0 on, its globals, its heap and its stack (`MemoryMap.regions`).  A map
  without faults has them start in this order, but says nothing about how long code and globals are.  The regions are apart
  if these two end before the next region starts (`MemoryMap.HasRoom`), and only then, unless one of them is empty
  (`pairwise_apart_iff`).
-/
import M32.MemoryMap

namespace M32

/-! ## Regions -/

/-- The addresses from `start` on and before `stop`. -/
structure Region where
  start : Nat
  stop : Nat
  deriving DecidableEq, Repr

namespace Region

variable {r s : Region}

/-- Whether an address lies in a region. -/
def Holds (r : Region) (address : Nat) : Prop := r.start ≤ address ∧ address < r.stop

/-- Whether no address lies in both of two regions. -/
def Apart (r s : Region) : Prop := ∀ address, ¬ (r.Holds address ∧ s.Holds address)

theorem apart_of_le (h : r.stop ≤ s.start) : r.Apart s := by
  rintro address ⟨hr, hs⟩
  exact Nat.not_le_of_lt hr.2 (Nat.le_trans h hs.1)

/-- Of two regions that are apart, the one that starts first ends before the other, if that one holds anything. -/
theorem le_of_apart (order : r.start ≤ s.start) (some_address : s.start < s.stop) (h : r.Apart s) : r.stop ≤ s.start := by
  refine Nat.le_of_not_lt fun crossed => h s.start ⟨⟨order, crossed⟩, Nat.le_refl _, some_address⟩

end Region

/-! ## Maps with room -/

namespace MemoryMap

variable {m : MemoryMap} {words globals : Nat}

/-- Where a program keeps code of some words, globals of some bytes, its heap and its stack. -/
def regions (m : MemoryMap) (words globals : Nat) : List Region :=
  [⟨0, 4 * words⟩, ⟨m.globalBase.toNat, m.globalBase.toNat + globals⟩, ⟨m.heapBase.toNat, m.heapLimit.toNat⟩,
    ⟨m.stackLimit.toNat, m.stackTop.toNat⟩]

/-- Whether code of some words ends before the globals start, and globals of some bytes end before the heap starts. -/
structure HasRoom (m : MemoryMap) (words globals : Nat) : Prop where
  code : 4 * words ≤ m.globalBase.toNat
  globals : m.globalBase.toNat + globals ≤ m.heapBase.toNat

/-- If a map has room, the regions lie one after the other. -/
theorem HasRoom.pairwise (valid : m.fault? = none) (room : m.HasRoom words globals) :
    (m.regions words globals).Pairwise (·.stop ≤ ·.start) := by
  obtain ⟨base, limit, stack, -⟩ := ordered_of_fault?_eq_none valid
  rw [UInt32.le_iff_toNat_le] at base limit stack
  have code := room.code
  have block := room.globals
  simp only [regions, List.pairwise_cons, List.forall_mem_cons, List.not_mem_nil, false_implies, implies_true,
    List.Pairwise.nil, and_true]
  omega

/-- With globals and a heap, the regions are apart if and only if the map has room. -/
theorem pairwise_apart_iff (valid : m.fault? = none) (some_global : 0 < globals) (some_heap : m.heapBase < m.heapLimit) :
    (m.regions words globals).Pairwise Region.Apart ↔ m.HasRoom words globals := by
  constructor
  · intro apart
    obtain ⟨base, -, -, -⟩ := ordered_of_fault?_eq_none valid
    obtain ⟨code, rest⟩ := List.pairwise_cons.1 apart
    obtain ⟨block, -⟩ := List.pairwise_cons.1 rest
    constructor
    · refine Region.le_of_apart (Nat.zero_le _) ?_ (code _ List.mem_cons_self)
      exact Nat.lt_add_of_pos_right some_global
    · refine Region.le_of_apart ?_ ?_ (block _ List.mem_cons_self)
      · exact UInt32.le_iff_toNat_le.1 base
      · exact UInt32.lt_iff_toNat_lt.1 some_heap
  · intro room
    exact (room.pairwise valid).imp Region.apart_of_le

/-- The usual map has room for 16384 words of code and 983040 bytes of globals. -/
example : ({} : MemoryMap).HasRoom 0x4000 0xF0000 ∧ ¬ ({} : MemoryMap).HasRoom 0x4000 0xF0001 :=
  ⟨⟨by decide, by decide⟩, fun room => absurd room.globals (by decide)⟩

end MemoryMap

end M32
