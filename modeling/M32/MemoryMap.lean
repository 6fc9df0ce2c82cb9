/-
  Where a program keeps its data, and what signals mean.

  Code lies at address 0.  Global variables start at `globalBase`, the heap grows upward from `heapBase` to
  `heapLimit`, and the stack downward from `stackTop` to `stackLimit`.  `MemoryMap.fault?` names the first rule that a
  map breaks: all addresses are multiples of four, and the regions lie in that order.
-/
import M32.Word

namespace M32

/-! ## Memory maps -/

/-- The addresses between which a program keeps its data. -/
structure MemoryMap where
  globalBase : Word := 0x10000
  heapBase : Word := 0x100000
  heapLimit : Word := 0x800000
  stackTop : Word := 0x1000000
  stackLimit : Word := 0xC00000
  deriving DecidableEq, Repr

namespace MemoryMap

/-- The rules that a memory map may break. -/
inductive Fault where
  | unaligned
  | globalsAboveHeap
  | heapAboveLimit
  | heapInStack
  | stackAboveTop
  deriving DecidableEq, Repr

/-- The wording of a broken rule. -/
def Fault.message : Fault → String
  | unaligned => "memory map addresses must be multiples of 4"
  | globalsAboveHeap => "global_base must lie below heap_base"
  | heapAboveLimit => "heap_base must lie below heap_limit"
  | heapInStack => "heap_limit must not exceed stack_limit"
  | stackAboveTop => "stack_limit must lie below stack_top"

/-- Whether an address is a multiple of four. -/
def isAligned (address : Word) : Bool := address % 4 == 0

/-- The first rule that a map breaks. -/
def fault? (m : MemoryMap) : Option Fault :=
  if [m.globalBase, m.heapBase, m.heapLimit, m.stackTop, m.stackLimit].any (!isAligned ·) then some .unaligned
  else if m.heapBase < m.globalBase then some .globalsAboveHeap
  else if m.heapLimit < m.heapBase then some .heapAboveLimit
  else if m.stackLimit < m.heapLimit then some .heapInStack
  else if m.stackTop < m.stackLimit then some .stackAboveTop
  else none

/-- A map without faults has its regions in order. -/
theorem ordered_of_fault?_eq_none {m : MemoryMap} (h : m.fault? = none) :
    m.globalBase ≤ m.heapBase ∧ m.heapBase ≤ m.heapLimit ∧ m.heapLimit ≤ m.stackLimit ∧ m.stackLimit ≤ m.stackTop := by
  unfold fault? at h
  grind [UInt32.not_lt]

end MemoryMap

/-! ## Signals -/

/-- The code of a signal that ends a program well. -/
def Signal.exit : Int16 := 1

/-- The code of the signal for a stack below its limit. -/
def Signal.stackLimit : Int16 := 41

/-- The code of the signal for a heap above its limit. -/
def Signal.heapLimit : Int16 := 42

end M32
