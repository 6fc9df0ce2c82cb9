/-
  Types of expressions and places.

  1. `Expr.HasTy` and `Place.HasTy` are the rules: what type an expression has, and what lies at a place.
  2. `Expr.ty?` and `Place.ty?` compute types, and find exactly those that the rules give (`ty?_eq_some_iff`).  So there is one type
     at most (`HasTy.unique`).
  3. `need` is the number of registers that code for an expression or a place takes, and `fits` and `sized` are what else has to
     hold of its literals and of the elements that it indexes.
-/
import M32.Lang.Code.Expr

namespace M32.Lang

/-! ## Rules -/

namespace Ty

/-- The types of numbers. -/
def IsNumber (ty : Ty) : Prop := ty = .scalar .int ∨ ty = .scalar .uint

instance (ty : Ty) : Decidable ty.IsNumber := inferInstanceAs (Decidable (_ ∨ _))

/-- The type of the elements that an index reaches. -/
def elem? : Ty → Option Ty
  | array elem _ => some elem
  | pointer target => some target
  | _ => none

end Ty

mutual

/-- The type of an expression. -/
inductive Expr.HasTy (site : Site) : Expr → Ty → Prop
  | int {n : Nat} : Expr.HasTy site (.number n false) (.scalar .int)
  | uint {n : Nat} : Expr.HasTy site (.number n true) (.scalar .uint)
  | bool {b : Bool} : Expr.HasTy site (.bool b) (.scalar .bool)
  | char {c : Char} : Expr.HasTy site (.char c) (.scalar .char)
  | place {p : Place} {ty : Ty} (hp : p.HasTy site ty) (word : ty.isWord = true) : Expr.HasTy site (.place p) ty
  | not {e : Expr} (he : e.HasTy site (.scalar .bool)) : Expr.HasTy site (.unary .not e) (.scalar .bool)
  | neg {e : Expr} (he : e.HasTy site (.scalar .int)) : Expr.HasTy site (.unary .neg e) (.scalar .int)
  | arithmetic {op : BinaryOp} {l r : Expr} {ty : Ty} (kind : op ∈ [.add, .sub, .mul, .div]) (number : ty.IsNumber)
      (hl : l.HasTy site ty) (hr : r.HasTy site ty) : Expr.HasTy site (.binary op l r) ty
  | order {op : BinaryOp} {l r : Expr} {ty : Ty} (kind : op ∈ [.lt, .gt, .le, .ge]) (ordered : ty.IsNumber ∨ ty = .scalar .char)
      (hl : l.HasTy site ty) (hr : r.HasTy site ty) : Expr.HasTy site (.binary op l r) (.scalar .bool)
  | equality {op : BinaryOp} {l r : Expr} {ty : Ty} (kind : op ∈ [.eq, .ne]) (word : ty.isWord = true)
      (hl : l.HasTy site ty) (hr : r.HasTy site ty) : Expr.HasTy site (.binary op l r) (.scalar .bool)
  | logic {op : BinaryOp} {l r : Expr} (kind : op ∈ [.and, .or])
      (hl : l.HasTy site (.scalar .bool)) (hr : r.HasTy site (.scalar .bool)) : Expr.HasTy site (.binary op l r) (.scalar .bool)

/-- The type of what lies at a place. -/
inductive Place.HasTy (site : Site) : Place → Ty → Prop
  | frame {name : String} {v : Var} (found : site.self.frame.find? name = some v) : Place.HasTy site (.var name) v.ty
  | global {name : String} {v : Var} (hidden : site.self.frame.find? name = none) (found : site.scope.global? name = some v) :
      Place.HasTy site (.var name) v.ty
  | index {base : Place} {i : Expr} {ty elem ity : Ty} (hb : base.HasTy site ty) (elements : ty.elem? = some elem)
      (hi : i.HasTy site ity) (number : ity.IsNumber) : Place.HasTy site (.index base i) elem
  | field {base : Place} {owner name : String} {v : Var} (hb : base.HasTy site (.struct owner))
      (found : site.scope.types.field owner name = .ok v) : Place.HasTy site (.field base name) v.ty
  | deref {base : Place} {target : Ty} (hb : base.HasTy site (.pointer target)) : Place.HasTy site (.deref base) target

end

/-! ## Types that are computed -/

/-- The type that an operator takes and gives. -/
def UnaryOp.operandTy : UnaryOp → Ty
  | not => .scalar .bool
  | neg => .scalar .int

mutual

/-- The type of an expression, if it has one. -/
def Expr.ty? (site : Site) : Expr → Option Ty
  | .number _ isUnsigned => some (.scalar (if isUnsigned then .uint else .int))
  | .bool _ => some (.scalar .bool)
  | .char _ => some (.scalar .char)
  | .place p => (p.ty? site).filter Ty.isWord
  | .unary op e => (e.ty? site).filter fun ty => ty = op.operandTy
  | .binary op l r =>
    (l.ty? site).bind fun ty => if r.ty? site = some ty ∧ op.takes ty = true then some (op.resultTy ty) else none

/-- The type of what lies at a place, if it is one. -/
def Place.ty? (site : Site) : Place → Option Ty
  | .var name => ((site.self.frame.find? name).or (site.scope.global? name)).map Var.ty
  | .index base i => if (i.ty? site).any (fun ty => decide ty.IsNumber) then (base.ty? site).bind Ty.elem? else none
  | .field base name => (base.ty? site).bind fun
    | .struct owner => (site.scope.types.field owner name).toOption.map Var.ty
    | _ => none
  | .deref base => (base.ty? site).bind fun
    | .pointer target => some target
    | _ => none

end

/-! ### Operators of one kind -/

namespace BinaryOp

variable {op : BinaryOp} {ty : Ty}

theorem takes_arithmetic (kind : op ∈ [add, sub, mul, div]) : (op.takes ty = true ↔ ty.IsNumber) ∧ op.resultTy ty = ty := by
  revert kind
  cases op <;> simp [takes, resultTy, Ty.IsNumber]

theorem takes_order (kind : op ∈ [lt, gt, le, ge]) :
    (op.takes ty = true ↔ ty.IsNumber ∨ ty = .scalar .char) ∧ op.resultTy ty = .scalar .bool := by
  revert kind
  cases op <;> simp [takes, resultTy, Ty.IsNumber]

theorem takes_equality (kind : op ∈ [eq, ne]) :
    (op.takes ty = true ↔ ty.isWord = true) ∧ op.resultTy ty = .scalar .bool := by
  revert kind
  cases op <;> simp [takes, resultTy]

theorem takes_logic (kind : op ∈ [and, or]) :
    (op.takes ty = true ↔ ty = .scalar .bool) ∧ op.resultTy ty = .scalar .bool := by
  revert kind
  cases op <;> simp [takes, resultTy]

theorem kinds (op : BinaryOp) :
    op ∈ [add, sub, mul, div] ∨ op ∈ [lt, gt, le, ge] ∨ op ∈ [eq, ne] ∨ op ∈ [and, or] := by
  cases op <;> decide

end BinaryOp

/-! ### The rules, form by form -/

section

variable {site : Site} {ty : Ty}

theorem hasTy_number_iff {n : Nat} {isUnsigned : Bool} :
    (Expr.number n isUnsigned).HasTy site ty ↔ ty = .scalar (if isUnsigned then .uint else .int) := by
  constructor
  · rintro ⟨⟩
    · rfl
    · rfl
  · rintro rfl
    cases isUnsigned
    · exact .int
    · exact .uint

theorem hasTy_place_iff {p : Place} : (Expr.place p).HasTy site ty ↔ p.HasTy site ty ∧ ty.isWord = true := by
  constructor
  · rintro ⟨⟩
    exact ⟨‹_›, ‹_›⟩
  · rintro ⟨hp, word⟩
    exact .place hp word

theorem hasTy_unary_iff {op : UnaryOp} {e : Expr} : (Expr.unary op e).HasTy site ty ↔ e.HasTy site op.operandTy ∧ ty = op.operandTy := by
  constructor
  · rintro ⟨⟩
    · exact ⟨‹_›, rfl⟩
    · exact ⟨‹_›, rfl⟩
  · rintro ⟨he, rfl⟩
    cases op
    · exact .not he
    · exact .neg he

theorem hasTy_binary_iff {op : BinaryOp} {l r : Expr} : (Expr.binary op l r).HasTy site ty ↔
    ∃ operand, l.HasTy site operand ∧ r.HasTy site operand ∧ op.takes operand = true ∧ ty = op.resultTy operand := by
  constructor
  · intro h
    rcases h with _ | _ | _ | _ | _ | _ | _ | ⟨kind, number, hl, hr⟩ | ⟨kind, ordered, hl, hr⟩ | ⟨kind, word, hl, hr⟩ | ⟨kind, hl, hr⟩
    · obtain ⟨takes, result⟩ := BinaryOp.takes_arithmetic kind
      exact ⟨_, hl, hr, takes.2 number, result.symm⟩
    · obtain ⟨takes, result⟩ := BinaryOp.takes_order kind
      exact ⟨_, hl, hr, takes.2 ordered, result.symm⟩
    · obtain ⟨takes, result⟩ := BinaryOp.takes_equality kind
      exact ⟨_, hl, hr, takes.2 word, result.symm⟩
    · obtain ⟨takes, result⟩ := BinaryOp.takes_logic kind
      exact ⟨_, hl, hr, takes.2 rfl, result.symm⟩
  · rintro ⟨operand, hl, hr, accepted, rfl⟩
    rcases op.kinds with kind | kind | kind | kind
    · obtain ⟨takes, result⟩ := @BinaryOp.takes_arithmetic _ operand kind
      rw [result]
      exact .arithmetic kind (takes.1 accepted) hl hr
    · obtain ⟨takes, result⟩ := @BinaryOp.takes_order _ operand kind
      rw [result]
      exact .order kind (takes.1 accepted) hl hr
    · obtain ⟨takes, result⟩ := @BinaryOp.takes_equality _ operand kind
      rw [result]
      exact .equality kind (takes.1 accepted) hl hr
    · obtain ⟨takes, result⟩ := @BinaryOp.takes_logic _ operand kind
      obtain rfl := takes.1 accepted
      rw [result]
      exact .logic kind hl hr

theorem hasTy_var_iff {name : String} : (Place.var name).HasTy site ty ↔
    ∃ v, (site.self.frame.find? name).or (site.scope.global? name) = some v ∧ ty = v.ty := by
  constructor
  · intro h
    rcases h with found | ⟨hidden, found⟩
    · exact ⟨_, by rw [found, Option.some_or], rfl⟩
    · exact ⟨_, by rw [hidden, Option.none_or, found], rfl⟩
  · rintro ⟨v, found, rfl⟩
    rcases hidden : site.self.frame.find? name with _ | u
    · rw [hidden, Option.none_or] at found
      exact .global hidden found
    · rw [hidden, Option.some_or] at found
      cases found
      exact .frame hidden

theorem hasTy_index_iff {base : Place} {i : Expr} : (Place.index base i).HasTy site ty ↔
    ∃ row ity, base.HasTy site row ∧ row.elem? = some ty ∧ i.HasTy site ity ∧ ity.IsNumber := by
  constructor
  · rintro ⟨⟩
    exact ⟨_, _, ‹_›, ‹_›, ‹_›, ‹_›⟩
  · rintro ⟨row, ity, hb, elements, hi, number⟩
    exact .index hb elements hi number

theorem hasTy_field_iff {base : Place} {name : String} : (Place.field base name).HasTy site ty ↔
    ∃ owner v, base.HasTy site (.struct owner) ∧ site.scope.types.field owner name = .ok v ∧ ty = v.ty := by
  constructor
  · rintro ⟨⟩
    exact ⟨_, _, ‹_›, ‹_›, rfl⟩
  · rintro ⟨owner, v, hb, found, rfl⟩
    exact .field hb found

theorem hasTy_deref_iff {base : Place} : (Place.deref base).HasTy site ty ↔ base.HasTy site (.pointer ty) := by
  constructor
  · rintro ⟨⟩
    assumption
  · intro hb
    exact .deref hb

mutual

/-- An expression has the type that is computed. -/
theorem Expr.ty?_eq_some_iff : ∀ (e : Expr) {ty : Ty}, e.ty? site = some ty ↔ e.HasTy site ty
  | .number n isUnsigned, ty => by
    rw [hasTy_number_iff, Expr.ty?, Option.some.injEq, eq_comm]
  | .bool b, ty => by
    rw [Expr.ty?, Option.some.injEq]
    constructor
    · rintro rfl
      exact .bool
    · rintro ⟨⟩
      rfl
  | .char c, ty => by
    rw [Expr.ty?, Option.some.injEq]
    constructor
    · rintro rfl
      exact .char
    · rintro ⟨⟩
      rfl
  | .place p, ty => by
    rw [hasTy_place_iff, ← p.ty?_eq_some_iff, Expr.ty?, Option.filter_eq_some_iff]
  | .unary op e, ty => by
    rw [hasTy_unary_iff, ← e.ty?_eq_some_iff, Expr.ty?, Option.filter_eq_some_iff, decide_eq_true_iff]
    constructor
    · rintro ⟨he, rfl⟩
      exact ⟨he, rfl⟩
    · rintro ⟨he, rfl⟩
      exact ⟨he, rfl⟩
  | .binary op l r, ty => by
    simp only [hasTy_binary_iff, ← l.ty?_eq_some_iff, ← r.ty?_eq_some_iff]
    rw [Expr.ty?, Option.bind_eq_some_iff]
    constructor
    · rintro ⟨operand, hl, h⟩
      split at h
      · next fine =>
        cases h
        exact ⟨operand, hl, fine.1, fine.2, rfl⟩
      · cases h
    · rintro ⟨operand, hl, hr, takes, rfl⟩
      exact ⟨operand, hl, if_pos ⟨hr, takes⟩⟩

/-- The type of what lies at a place is the one that is computed. -/
theorem Place.ty?_eq_some_iff : ∀ (p : Place) {ty : Ty}, p.ty? site = some ty ↔ p.HasTy site ty
  | .var name, ty => by
    rw [hasTy_var_iff, Place.ty?, Option.map_eq_some_iff]
    simp only [eq_comm]
  | .index base i, ty => by
    simp only [hasTy_index_iff, ← base.ty?_eq_some_iff, ← i.ty?_eq_some_iff]
    rw [Place.ty?]
    constructor
    · intro h
      split at h
      · next number =>
        obtain ⟨ity, hi, number⟩ := (Option.any_eq_true _ _).1 number
        obtain ⟨row, hb, elements⟩ := Option.bind_eq_some_iff.1 h
        exact ⟨row, ity, hb, elements, hi, of_decide_eq_true number⟩
      · cases h
    · rintro ⟨row, ity, hb, elements, hi, number⟩
      rw [hb, hi, Option.any_some, decide_eq_true number, if_pos rfl, Option.bind_some, elements]
  | .field base name, ty => by
    simp only [hasTy_field_iff, ← base.ty?_eq_some_iff]
    rw [Place.ty?, Option.bind_eq_some_iff]
    constructor
    · rintro ⟨row, hb, h⟩
      cases row with
      | struct owner =>
        simp only at h
        rcases found : site.scope.types.field owner name with e | v
        · rw [found] at h
          cases h
        · rw [found] at h
          cases h
          exact ⟨owner, v, hb, found, rfl⟩
      | _ => cases h
    · rintro ⟨owner, v, hb, found, rfl⟩
      exact ⟨_, hb, by simp only [found]; rfl⟩
  | .deref base, ty => by
    rw [hasTy_deref_iff, ← base.ty?_eq_some_iff, Place.ty?, Option.bind_eq_some_iff]
    constructor
    · rintro ⟨row, hb, h⟩
      cases row with
      | pointer target =>
        cases h
        exact hb
      | _ => cases h
    · intro hb
      exact ⟨_, hb, rfl⟩

end

theorem Expr.HasTy.unique {e : Expr} {ty ty' : Ty} (h : e.HasTy site ty) (h' : e.HasTy site ty') : ty = ty' := by
  rw [← Expr.ty?_eq_some_iff] at h h'
  exact Option.some.inj (h.symm.trans h')

/-- What holds of some type of an expression holds of its type. -/
theorem Expr.HasTy.exists_and_iff {e : Expr} {ty : Ty} (h : e.HasTy site ty) {P : Ty → Prop} :
    (∃ ty', e.HasTy site ty' ∧ P ty') ↔ P ty := by
  constructor
  · rintro ⟨ty', h', holds⟩
    rwa [h.unique h']
  · intro holds
    exact ⟨ty, h, holds⟩

theorem Place.HasTy.unique {p : Place} {ty ty' : Ty} (h : p.HasTy site ty) (h' : p.HasTy site ty') : ty = ty' := by
  rw [← Place.ty?_eq_some_iff] at h h'
  exact Option.some.inj (h.symm.trans h')

/-- What holds of some type of a place holds of its type. -/
theorem Place.HasTy.exists_and_iff {p : Place} {ty : Ty} (h : p.HasTy site ty) {P : Ty → Prop} :
    (∃ ty', p.HasTy site ty' ∧ P ty') ↔ P ty := by
  constructor
  · rintro ⟨ty', h', holds⟩
    rwa [h.unique h']
  · intro holds
    exact ⟨ty, h, holds⟩

end

/-! ## Literals, sizes and registers -/

/-- The number of bytes of the elements that an index of a place reaches. -/
def Place.elemSize? (site : Site) (base : Place) : Option Nat :=
  ((base.ty? site).bind Ty.elem?).bind fun elem => (site.scope.types.sizeOf elem).toOption

mutual

/-- Whether all numbers in an expression are words of their types. -/
def Expr.fits : Expr → Bool
  | .number n isUnsigned => n < if isUnsigned then 0x100000000 else 0x80000000
  | .bool _ | .char _ => true
  | .place p => p.fits
  | .unary _ e => e.fits
  | .binary _ l r => l.fits && r.fits

/-- Whether all numbers in the indices of a place are words of their types. -/
def Place.fits : Place → Bool
  | .var _ => true
  | .index base i => base.fits && i.fits
  | .field base _ | .deref base => base.fits

end

mutual

/-- Whether all elements that are indexed in an expression have sizes. -/
def Expr.sized (site : Site) : Expr → Bool
  | .number .. | .bool _ | .char _ => true
  | .place p => p.sized site
  | .unary _ e => e.sized site
  | .binary _ l r => l.sized site && r.sized site

/-- Whether all elements that are indexed on the way to a place have sizes. -/
def Place.sized (site : Site) : Place → Bool
  | .var _ => true
  | .index base i => base.sized site && i.sized site && (base.elemSize? site).isSome
  | .field base _ | .deref base => base.sized site

end

mutual

/-- How many registers the code of an expression takes. -/
def Expr.need (site : Site) : Expr → Nat
  | .number .. | .bool _ | .char _ => 1
  | .place p => p.need site
  | .unary _ e => e.need site
  | .binary _ l r => max (l.need site) (1 + r.need site)

/-- How many registers the code of a place takes.  A factor that is no power of two takes one besides the address and the index. -/
def Place.need (site : Site) : Place → Nat
  | .var _ => 1
  | .index base i =>
    max (base.need site) (max (1 + i.need site) (if (base.elemSize? site).all fun n => n.isPowerOfTwo then 1 else 3))
  | .field base _ | .deref base => base.need site

end

theorem elemSize?_eq_some_iff {site : Site} {base : Place} {n : Nat} : base.elemSize? site = some n ↔
    ∃ ty, base.HasTy site ty ∧ ∃ elem, ty.elem? = some elem ∧ site.scope.types.sizeOf elem = .ok n := by
  rw [Place.elemSize?, Option.bind_eq_some_iff]
  constructor
  · rintro ⟨elem, reached, size⟩
    obtain ⟨ty, hb, elements⟩ := Option.bind_eq_some_iff.1 reached
    rcases hs : site.scope.types.sizeOf elem with e | m
    · rw [hs] at size
      cases size
    · rw [hs] at size
      cases size
      exact ⟨ty, base.ty?_eq_some_iff.1 hb, elem, elements, hs⟩
  · rintro ⟨ty, hb, elem, elements, size⟩
    refine ⟨elem, Option.bind_eq_some_iff.2 ⟨ty, base.ty?_eq_some_iff.2 hb, elements⟩, ?_⟩
    rw [size]
    rfl

end M32.Lang
