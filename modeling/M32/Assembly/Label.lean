/-
  The table of labels of one assembly.

  An entry is bound to an address or waits for one; while it waits it keeps the slots of the jumps to fill in, in
  the order in which they came.  Entries stay in the order in which their names first occurred.
  1. `reference` looks a label up and adds a waiting slot if it has no address yet.
  2. `define` binds a label once and hands its waiting slots out; a second definition is refused and names
     the line of the first.
  3. `unresolved` lists the labels that still wait.
-/
import M32.Assembly.Error

namespace M32.Assembly

/-! ## Entries -/

/-- What is known of a label. -/
inductive Binding where
  /-- Defined in a line, at an address. -/
  | bound (address : Word) (line : Nat)
  /-- Used, not defined: the slots that wait for the address. -/
  | waiting (slots : List Nat)
  deriving DecidableEq, Repr

/-- The address of a defined label. -/
def Binding.address? : Binding → Option Word
  | bound address _ => some address
  | waiting _ => none

/-- The labels of one assembly, in the order of their first occurrence. -/
structure LabelTable where
  entries : List (String × Binding) := []
  deriving DecidableEq, Repr

namespace LabelTable

/-- What is known of a name. -/
def find? (t : LabelTable) (name : String) : Option Binding := t.entries.lookup name

/-- Sets what is known of a name, in its old place or else at the end. -/
def setIn (name : String) (b : Binding) : List (String × Binding) → List (String × Binding)
  | [] => [(name, b)]
  | e :: es => if e.1 = name then (name, b) :: es else e :: setIn name b es

/-- The table with a new entry for a name. -/
def set (t : LabelTable) (name : String) (b : Binding) : LabelTable := ⟨setIn name b t.entries⟩

theorem lookup_setIn (name other : String) (b : Binding) (es : List (String × Binding)) :
    (setIn name b es).lookup other = if other = name then some b else es.lookup other := by
  induction es with
  | nil => by_cases h : other = name <;> simp [setIn, List.lookup_cons, beq_eq_false_iff_ne.2, h]
  | cons e es ih =>
    obtain ⟨n, v⟩ := e
    by_cases hn : n = name
    · by_cases h : other = name <;> simp [setIn, List.lookup_cons, beq_eq_false_iff_ne.2, hn, h]
    · by_cases h : other = n
      · subst h; simp [setIn, hn]
      · simp [setIn, List.lookup_cons, beq_eq_false_iff_ne.2 h, hn, ih]

theorem find?_set (t : LabelTable) (name other : String) (b : Binding) :
    (t.set name b).find? other = if other = name then some b else t.find? other :=
  lookup_setIn name other b t.entries

/-! ## Operations -/

/-- The address of a label, if it is defined. -/
def get? (t : LabelTable) (name : String) : Option Word := (t.find? name).bind Binding.address?

/-- Binds a label to an address.  Gives the slots that waited for it. -/
def define (t : LabelTable) (name : String) (address : Word) (line : Nat) : Except Fault (List Nat × LabelTable) :=
  match t.find? name with
  | some (.bound _ first) => .error (.redefinedLabel name first)
  | some (.waiting slots) => .ok (slots, t.set name (.bound address line))
  | none => .ok ([], t.set name (.bound address line))

/-- Looks a label up for a jump in `slot`.  Without an address the slot waits. -/
def reference (t : LabelTable) (name : String) (slot : Nat) : Option Word × LabelTable :=
  match t.find? name with
  | some (.bound address _) => (some address, t)
  | some (.waiting slots) => (none, t.set name (.waiting (slots ++ [slot])))
  | none => (none, t.set name (.waiting [slot]))

/-- The labels that are used and not defined. -/
def unresolved (t : LabelTable) : List String :=
  (t.entries.filter fun e => e.2.address?.isNone).map (·.1)

end LabelTable

end M32.Assembly
