/-
  What a machine finds for an expression: an evaluator over all of memory.

  `Expr.eval` gives a meaning to expressions that stay within the memory of a program.  The code of an expression does not ask
  whose memory it loads from, so what it finds is defined for every machine.
  1. `View` is what such code sees of a machine.
  2. `Found` is the type and the word that are found, and the addresses that are loaded on the way.
  3. `BinaryOp.word` and `UnaryOp.word` are the values of operators, and for words that are no truth values the words that the
     instructions for truth values leave.
  4. `Expr.found` is for expressions and `Place.found` for places, whose word is the address.
-/
import M32.Machine.Basic
import M32.Proofs.Lang.Meaning

namespace M32.Lang

open Machine

/-! ## Operators -/

/-- The word that an operator leaves for two words of a type.  Where these are no truth values, their bits are combined. -/
def BinaryOp.word (op : BinaryOp) (ty : Ty) (a b : Word) : Word :=
  (op.value? ty a b).getD (if op = .or then a ||| b else a &&& b)

/-- The word that an operator leaves for a word.  One that is no truth value counts as true if its predecessor is negative. -/
def UnaryOp.word (op : UnaryOp) (w : Word) : Word := (op.value? w).getD (Word.ofBool ((w - 1).toInt < 0))

/-! ## Views -/

/-- What code sees of a machine: the stack pointer, the start of the globals, and memory. -/
structure View where
  sp : Word
  bp : Word
  memory : Memory

/-- The view of a machine. -/
def View.of (s : State) : View := ⟨s.reg .sp, s.reg .bp, s.memory⟩

/-- The type and the word that are found, and the addresses that are loaded on the way, in this order. -/
structure Found where
  ty : Ty
  word : Word
  loads : List Word

/-- The type and the address of a variable.  A variable of the frame hides a global one. -/
def Site.named? (site : Site) (v : View) (name : String) : Option Found :=
  match site.self.frame.find? name, site.scope.global? name with
  | some x, _ => some ⟨x.ty, v.sp + UInt32.ofNat (site.frameBase + x.offset), []⟩
  | none, some x => some ⟨x.ty, v.bp + UInt32.ofNat x.offset, []⟩
  | none, none => none

/-! ### Steps of places -/

namespace Found

/-- The word at the address that was found. -/
def load (f : Found) (v : View) (ty : Ty) : Found := ⟨ty, v.memory.read f.word, f.loads ++ [f.word]⟩

/-- The elements of an array, or those that a pointer points at. -/
def elements? (f : Found) (v : View) : Option Found :=
  match f.ty with
  | .array elem _ => some { f with ty := elem }
  | .pointer target => some (f.load v target)
  | _ => none

/-- The element of an index, given the first one. -/
def element? (first : Found) (site : Site) (i : Found) : Option Found := do
  let size ← (site.scope.types.sizeOf first.ty).toOption
  return ⟨first.ty, first.word + i.word * UInt32.ofNat size, first.loads ++ i.loads⟩

/-- A field. -/
def field? (f : Found) (site : Site) (name : String) : Option Found :=
  match f.ty with
  | .struct owner => do
    let field ← (site.scope.types.field owner name).toOption
    return { f with ty := field.ty, word := f.word + UInt32.ofNat field.offset }
  | _ => none

/-- What a pointer points at. -/
def target? (f : Found) (v : View) : Option Found :=
  match f.ty with
  | .pointer target => some (f.load v target)
  | _ => none

end Found

/-! ## Expressions and places -/

mutual

/-- The type and the value of an expression. -/
def Expr.found (site : Site) (v : View) : Expr → Option Found
  | .number value isUnsigned => some ⟨.scalar (if isUnsigned then .uint else .int), UInt32.ofNat value, []⟩
  | .bool value => some ⟨.scalar .bool, Word.ofBool value, []⟩
  | .char value => some ⟨.scalar .char, UInt32.ofNat value.toNat, []⟩
  | .place p => do
    let f ← p.found site v
    return f.load v f.ty
  | .unary op operand => do
    let f ← operand.found site v
    return { f with word := op.word f.word }
  | .binary op left right => do
    let l ← left.found site v
    let r ← right.found site v
    return ⟨op.resultTy l.ty, op.word l.ty l.word r.word, l.loads ++ r.loads⟩

/-- The type and the address of a place. -/
def Place.found (site : Site) (v : View) : Place → Option Found
  | .var name => site.named? v name
  | .index base i => do
    let first ← (← base.found site v).elements? v
    first.element? site (← i.found site v)
  | .field base name => do (← base.found site v).field? site name
  | .deref base => do (← base.found site v).target? v

end

/-! ## Steps that are made -/

namespace Found

variable {f first i found : Found} {site : Site} {v : View} {name : String} {a : Word}

theorem field?_of_ok {owner : String} {field : Var} (ht : f.ty = .struct owner)
    (hf : site.scope.types.field owner name = .ok field) :
    f.field? site name = some { f with ty := field.ty, word := f.word + UInt32.ofNat field.offset } := by
  rw [field?, ht]
  show (do
    let field ← (site.scope.types.field owner name).toOption
    return { f with ty := field.ty, word := f.word + UInt32.ofNat field.offset }) = _
  rw [hf]
  rfl

theorem element?_of_ok {size : Nat} (hn : site.scope.types.sizeOf first.ty = .ok size) :
    first.element? site i = some ⟨first.ty, first.word + i.word * UInt32.ofNat size, first.loads ++ i.loads⟩ := by
  rw [element?, hn]
  rfl

/-- What was loaded for a place is loaded for its elements. -/
theorem loads_elements? (h : f.elements? v = some first) (ha : a ∈ f.loads) : a ∈ first.loads := by
  unfold elements? at h
  split at h
  · cases h
    exact ha
  · cases h
    exact List.mem_append_left _ ha
  · cases h

theorem loads_target? (h : f.target? v = some found) (ha : a ∈ f.loads) : a ∈ found.loads := by
  unfold target? at h
  split at h
  · cases h
    exact List.mem_append_left _ ha
  · cases h

theorem loads_element? (h : first.element? site i = some found) : found.loads = first.loads ++ i.loads := by
  obtain ⟨size, -, h⟩ := Option.bind_eq_some_iff.1 h
  cases h
  rfl

theorem loads_field? (h : f.field? site name = some found) : found.loads = f.loads := by
  unfold field? at h
  split at h
  · obtain ⟨field, -, h⟩ := Option.bind_eq_some_iff.1 h
    cases h
    rfl
  · cases h

end Found

/-! ## Truth values -/

theorem eq_ofBool_of_truth? {w : Word} {b : Bool} (h : truth? w = some b) : w = Word.ofBool b := by
  unfold truth? at h
  split at h
  · next zero => cases h; exact zero
  · split at h
    · next one => cases h; exact one
    · cases h

theorem BinaryOp.word_of_value? {op : BinaryOp} {ty : Ty} {a b w : Word} (h : op.value? ty a b = some w) : op.word ty a b = w := by
  rw [BinaryOp.word, h]; rfl

theorem UnaryOp.word_of_value? {op : UnaryOp} {a w : Word} (h : op.value? a = some w) : op.word a = w := by
  rw [UnaryOp.word, h]; rfl

/-- The bits of truth values are combined as these are. -/
theorem BinaryOp.word_and (ty : Ty) (a b : Word) : BinaryOp.and.word ty a b = a &&& b := by
  cases h : BinaryOp.and.value? ty a b with
  | none =>
    rw [BinaryOp.word, h]
    rfl
  | some w =>
    rw [word_of_value? h]
    obtain ⟨x, hx, y, hy, rfl⟩ : ∃ x, truth? a = some x ∧ ∃ y, truth? b = some y ∧ Word.ofBool (x && y) = w := by
      simpa [BinaryOp.value?, Option.bind_eq_some_iff] using h
    rw [eq_ofBool_of_truth? hx, eq_ofBool_of_truth? hy]
    cases x <;> cases y <;> rfl

theorem BinaryOp.word_or (ty : Ty) (a b : Word) : BinaryOp.or.word ty a b = a ||| b := by
  cases h : BinaryOp.or.value? ty a b with
  | none =>
    rw [BinaryOp.word, h]
    rfl
  | some w =>
    rw [word_of_value? h]
    obtain ⟨x, hx, y, hy, rfl⟩ : ∃ x, truth? a = some x ∧ ∃ y, truth? b = some y ∧ Word.ofBool (x || y) = w := by
      simpa [BinaryOp.value?, Option.bind_eq_some_iff] using h
    rw [eq_ofBool_of_truth? hx, eq_ofBool_of_truth? hy]
    cases x <;> cases y <;> rfl

theorem UnaryOp.word_not (w : Word) : UnaryOp.not.word w = Word.ofBool ((w - 1).toInt < 0) := by
  cases h : UnaryOp.not.value? w with
  | none =>
    rw [UnaryOp.word, h]
    rfl
  | some u =>
    rw [word_of_value? h]
    obtain ⟨b, hb, rfl⟩ := Option.map_eq_some_iff.1 h
    rw [eq_ofBool_of_truth? hb]
    cases b <;> rfl

end M32.Lang
