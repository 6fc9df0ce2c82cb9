/-
  Line numbers mean nothing to the assembler.

  `renumber f` gives the lines that an assembler remembers other numbers.  A line is taken or refused alike, whatever
  the numbers are (`Assembler.feed_renumber`); they only come along with what is assembled.
-/
import M32.Assembly.Assembler

namespace M32.Assembly

variable (f : Nat → Nat)

/-! ## Tables of labels -/

/-- A binding with another number for its line. -/
def Binding.renumber : Binding → Binding
  | bound address line => bound address (f line)
  | waiting slots => waiting slots

namespace LabelTable

/-- A table with other numbers for the lines of its labels. -/
def renumber (t : LabelTable) : LabelTable := ⟨t.entries.map fun e => (e.1, e.2.renumber f)⟩

theorem find?_renumber (t : LabelTable) (name : String) : (t.renumber f).find? name = (t.find? name).map (·.renumber f) := by
  obtain ⟨entries⟩ := t
  show (entries.map _).lookup name = (entries.lookup name).map _
  induction entries with
  | nil => rfl
  | cons e es ih =>
    rw [List.map_cons, List.lookup_cons, List.lookup_cons]
    cases name == e.1 with
    | true => rfl
    | false => exact ih

theorem set_renumber (t : LabelTable) (name : String) (b : Binding) :
    (t.renumber f).set name (b.renumber f) = (t.set name b).renumber f := by
  obtain ⟨entries⟩ := t
  show LabelTable.mk _ = LabelTable.mk _
  congr 1
  show setIn name _ (entries.map _) = (setIn name b entries).map _
  induction entries with
  | nil => rfl
  | cons e es ih =>
    rw [List.map_cons, setIn, setIn]
    by_cases here : e.1 = name
    · rw [if_pos here, if_pos here]; rfl
    · rw [if_neg here, if_neg here, ih]; rfl

theorem define_renumber (t : LabelTable) (name : String) (address : Word) (line : Nat) :
    ((t.renumber f).define name address (f line)).toOption
      = (t.define name address line).toOption.map fun (slots, t) => (slots, t.renumber f) := by
  have bound := set_renumber f t name (.bound address line)
  rw [define, define, find?_renumber]
  cases t.find? name with
  | none => exact congrArg (fun t => some ([], t)) bound
  | some b =>
    cases b with
    | bound address line => rfl
    | waiting slots => exact congrArg (fun t => some (slots, t)) bound

theorem reference_renumber (t : LabelTable) (name : String) (slot : Nat) :
    (t.renumber f).reference name slot = ((t.reference name slot).1, (t.reference name slot).2.renumber f) := by
  rw [reference, reference, find?_renumber]
  cases t.find? name with
  | none => exact congrArg (fun t => (none, t)) (set_renumber f t name (.waiting [slot]))
  | some b =>
    cases b with
    | bound address line => rfl
    | waiting slots => exact congrArg (fun t => (none, t)) (set_renumber f t name (.waiting (slots ++ [slot])))

end LabelTable

/-! ## Slots -/

/-- A slot with another number for its line. -/
def Slot.renumber (s : Slot) : Slot := { s with placed := { s.placed with line := f s.placed.line } }

theorem Slot.aim_renumber (s : Slot) (index : Word) : (s.renumber f).aim index = (s.aim index).renumber f := rfl

/-! ## Assemblers -/

/-- Two computations that give the same but for a change either both give something or both fail. -/
theorem eq_of_toOption {ε ε' α β : Type} {x : Except ε α} {y : Except ε' β} {g : α → β} (h : y.toOption = x.toOption.map g) :
    (∃ a, x = .ok a ∧ y = .ok (g a)) ∨ ∃ e e', x = .error e ∧ y = .error e' := by
  cases x with
  | error e =>
    cases y with
    | error e' => exact .inr ⟨e, e', rfl, rfl⟩
    | ok b => cases h
  | ok a =>
    cases y with
    | error e' => cases h
    | ok b =>
      cases h
      exact .inl ⟨a, rfl, rfl⟩

namespace Assembler

/-- An assembler with other numbers for its lines. -/
def renumber (a : Assembler) : Assembler :=
  { a with labels := a.labels.renumber f, slots := a.slots.map (·.renumber f) }

theorem renumber_empty : renumber f {} = {} := by
  rw [renumber, Array.map_empty]
  rfl

variable (a : Assembler) (line : Nat)

theorem push_renumber (pending : Bool) (i : Instr) :
    (a.renumber f).push (f line) pending i = (a.push line pending i).renumber f := by
  simp only [push, renumber, Array.map_push]
  rfl

theorem foldl_push_renumber (is : List Instr) :
    is.foldl (fun a i => a.push (f line) false i) (a.renumber f) = (is.foldl (fun a i => a.push line false i) a).renumber f := by
  induction is generalizing a with
  | nil => rfl
  | cons i is ih =>
    rw [List.foldl_cons, List.foldl_cons, push_renumber, ih]

theorem aimAll_renumber (slots : Array Slot) (index : Word) (waiting : List Nat) :
    aimAll (slots.map (·.renumber f)) index waiting = (aimAll slots index waiting).map (·.renumber f) := by
  induction waiting generalizing slots with
  | nil => rfl
  | cons n waiting ih =>
    have one : (slots.map (·.renumber f)).modify n (·.aim index) = (slots.modify n (·.aim index)).map (·.renumber f) := by
      apply Array.ext_getElem?
      intro j
      rw [Array.getElem?_modify, Array.getElem?_map, Array.getElem?_map, Array.getElem?_modify]
      split
      · simp [Function.comp_def, Slot.aim_renumber]
      · rfl
    show aimAll ((slots.map (·.renumber f)).modify n (·.aim index)) index waiting = _
    rw [one, ih]
    rfl

theorem settle_renumber : (a.renumber f).settle = (a.settle).renumber f := by
  have count (slots : Array Slot) (n : Nat) : settledFrom (slots.map (·.renumber f)) n = settledFrom slots n := by
    fun_induction settledFrom slots n with
    | case1 n h pending =>
      rw [settledFrom, dif_pos (by simpa using h), if_pos (by simpa [Slot.renumber] using pending)]
    | case2 n h pending ih =>
      rw [settledFrom, dif_pos (by simpa using h), if_neg (by simpa [Slot.renumber] using pending), ih]
    | case3 n h =>
      rw [settledFrom, dif_neg (by simpa using h)]
  show { a.renumber f with settled := settledFrom (a.slots.map (Slot.renumber f)) a.settled } = _
  rw [count]
  rfl

/-! ### Lines -/

theorem feedStatement_renumber (s : Statement) :
    ((a.renumber f).feedStatement (f line) s).toOption = (a.feedStatement line s).toOption.map (·.renumber f) := by
  cases s with
  | label name =>
    simp only [feedStatement, bind, Except.bind]
    rw [show (a.renumber f).labels = a.labels.renumber f from rfl, show (a.renumber f).pc = a.pc from rfl]
    rcases eq_of_toOption (a.labels.define_renumber f name a.pc line) with ⟨⟨slots, t⟩, h, h'⟩ | ⟨e, e', h, h'⟩
    · rw [h, h']
      dsimp only
      cases jumpIndex a.pc with
      | error e => rfl
      | ok index =>
        show some { a.renumber f with labels := t.renumber f, slots := aimAll (a.slots.map (Slot.renumber f)) index slots } = some _
        rw [aimAll_renumber]
        rfl
    · rw [h, h']
      rfl
  | pseudo p =>
    simp only [feedStatement]
    cases p.expand with
    | ok is => exact congrArg some (foldl_push_renumber f a line is)
    | error e => rfl
  | instr i => exact congrArg some (push_renumber f a line false i)
  | jump link label =>
    have size : (a.renumber f).slots.size = a.slots.size := Array.size_map
    have looked := a.labels.reference_renumber f label a.slots.size
    simp only [feedStatement, size]
    rw [show (a.renumber f).labels = a.labels.renumber f from rfl, looked]
    rcases a.labels.reference label a.slots.size with ⟨address | address, labels⟩
    · exact congrArg some (push_renumber f { a with labels } line true (.jump link 0))
    · show ((jumpIndex address).map _).toOption = ((jumpIndex address).map _).toOption.map _
      cases jumpIndex address with
      | error e => rfl
      | ok index => exact congrArg some (push_renumber f a line false (.jump link index))

/-- A line under another number is taken or refused as it was under its own. -/
theorem feed_renumber (text : List Char) :
    ((a.renumber f).feed (f line) text).toOption = (a.feed line text).toOption.map (·.renumber f) := by
  rw [feed, feed]
  cases Statement.read text with
  | error e => rfl
  | ok s? =>
    cases s? with
    | none => exact congrArg some (settle_renumber f a)
    | some s =>
      simp only [bind, Except.bind]
      rcases eq_of_toOption (feedStatement_renumber f a line s) with ⟨b, h, h'⟩ | ⟨e, e', h, h'⟩
      · rw [h, h']
        exact congrArg some (settle_renumber f b)
      · rw [h, h']
        rfl

end Assembler

end M32.Assembly
