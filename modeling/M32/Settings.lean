/-
  What a settings file sets.

  The machine reads its memory size, its step budget and the memory map; the compiler reads the map from the same
  file and passes the rest over.  Points at which to watch a run have a file of their own.
  Every field may be left out; fields of other names are passed over.  A map that breaks a rule of memory maps is
  refused after it was read.
-/
import M32.MemoryMap
import M32.Yaml.Document.Reader

namespace M32

open Yaml (Document Node)

/-! ## Machine settings -/

/-- Settings of the machine. -/
structure Settings where
  /-- The number of bytes that can be addressed. -/
  memorySize : Nat := 0x100000000
  /-- The number of instructions after which a run ends. -/
  stepBudget : Nat := 10000000
  map : MemoryMap := {}
  deriving DecidableEq, Repr

/-- Why a settings file is refused. -/
inductive SettingsError where
  /-- The text is no document of the expected form. -/
  | malformed
  | badMap (fault : MemoryMap.Fault)
  deriving DecidableEq, Repr

namespace Settings

/-- An address. -/
def word? (d : Document) (n : Node) : Option Word := (d.natural? 0x100000000 n).map UInt32.ofNat

/-- A count of 64 bits. -/
def count? (d : Document) (n : Node) : Option Nat := d.natural? 0x10000000000000000 n

/-- A memory map, defaults where fields are missing. -/
def map? (d : Document) (n : Node) : Option MemoryMap := do
  let entries ← d.entries? n
  let base : MemoryMap := {}
  let globalBase ← d.field? entries "global_base" base.globalBase (word? d)
  let heapBase ← d.field? entries "heap_base" base.heapBase (word? d)
  let heapLimit ← d.field? entries "heap_limit" base.heapLimit (word? d)
  let stackTop ← d.field? entries "stack_top" base.stackTop (word? d)
  let stackLimit ← d.field? entries "stack_limit" base.stackLimit (word? d)
  some { globalBase, heapBase, heapLimit, stackTop, stackLimit }

/-- The settings of a document. -/
def ofDocument? (d : Document) : Option Settings := do
  let entries ← d.entries? d.root
  let base : Settings := {}
  let memorySize ← d.field? entries "memory_size" base.memorySize (count? d)
  let stepBudget ← d.field? entries "step_budget" base.stepBudget (count? d)
  let map ← d.field? entries "map" base.map (map? d)
  some { memorySize, stepBudget, map }

/-- The memory map of a document, with nothing else looked at. -/
def mapOnly? (d : Document) : Option MemoryMap := do
  d.field? (← d.entries? d.root) "map" {} (map? d)

/-- Refuses a value whose memory map breaks a rule. -/
def checked {α : Type} (map : α → MemoryMap) : Option α → Except SettingsError α
  | none => .error .malformed
  | some v => match (map v).fault? with
    | some fault => .error (.badMap fault)
    | none => .ok v

/-- Reads the settings of the machine. -/
def read (cs : List Char) : Except SettingsError Settings := checked (·.map) ((Document.ofText? cs).bind ofDocument?)

/-- Reads the memory map for the compiler. -/
def readMap (cs : List Char) : Except SettingsError MemoryMap := checked id ((Document.ofText? cs).bind mapOnly?)

example : (read "# c\nstep_budget: 0x10 # n\nmap: {stack_limit: 15728640}\n".toList).toOption
    = some { stepBudget := 16, map := { stackLimit := 15728640 } } := by decide +kernel

end Settings

/-! ## Watch points -/

/-- What to show after the instruction at an address. -/
structure WatchPoint where
  /-- The number of words to show from the stack pointer upward. -/
  stack : Nat := 0
  /-- Addresses of words to show. -/
  words : List Word := []
  deriving DecidableEq, Repr

namespace WatchPoint

/-- A watch point. -/
def ofNode? (d : Document) (n : Node) : Option WatchPoint := do
  let entries ← d.entries? n
  let stack ← d.field? entries "stack" 0 (Settings.count? d)
  let words ← d.field? entries "words" [] fun n => do (← d.items? n).mapM (Settings.word? d)
  some { stack, words }

/-- Sets the watch point of an address, in place of an earlier one. -/
def insert (address : Word) (p : WatchPoint) : List (Word × WatchPoint) → List (Word × WatchPoint)
  | [] => [(address, p)]
  | e :: es => if e.1 = address then (address, p) :: es else e :: insert address p es

/-- Reads watch points by address.  The last one of an address counts. -/
def readAll (cs : List Char) : Option (List (Word × WatchPoint)) := do
  let d ← Document.ofText? cs
  let entries ← d.entries? d.root
  let points ← entries.mapM fun (k, v) => do
    let address ← Settings.word? d k
    let p ← ofNode? d v
    some (address, p)
  some (points.foldl (fun ps (address, p) => insert address p ps) [])

example : readAll "8:\n  stack: 2\n  words: [0, 256]\n20:\n  words:\n    - 4\n".toList
    = some [(8, ⟨2, [0, 256]⟩), (20, ⟨0, [4]⟩)] := by decide +kernel

end WatchPoint

end M32
