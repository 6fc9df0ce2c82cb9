/-
  When there is code for an expression.

  1. `RegPool.free` is the number of registers that are left to hand out; there is a next one unless it is zero, and the one
     handed out is one less (`acquire?_isSome_iff`, `free_acquire`).
  2. `Emit.Exact` says of a piece of code when it is produced, and what holds after it.  Pieces in a row have a lemma
     (`Exact.seq`), and so has each of the pieces that `Emit` is built from.
  3. `exact_exprCode`, `exact_placeCode`: there is code just for what has a type, fits and does not need more registers than are
     left.  It leaves the lowest of these in use.
-/
import M32.Proofs.Lang.Code.Arrives
import M32.Proofs.Lang.Typing

namespace M32.Lang

/-! ## Registers that are left -/

namespace RegPool

variable {p q : RegPool} {r : Reg}

/-- The number of registers that are left to hand out. -/
def free (p : RegPool) : Nat := lent.countP fun r => !p.isUsed r

theorem nodup_lent : lent.Nodup := by decide

theorem free_pos_iff : 1 ≤ p.free ↔ ∃ r ∈ lent, p.isUsed r = false := by
  rw [free, Nat.succ_le_iff, List.countP_pos_iff]
  simp only [Bool.not_eq_true']

theorem acquire?_isSome_iff : (∃ r q, p.acquire? = some (r, q)) ↔ 1 ≤ p.free := by
  rw [free_pos_iff]
  constructor
  · rintro ⟨r, q, hq⟩
    have taken := Takes.of_acquire? hq
    exact ⟨r, taken.lent, taken.unused⟩
  · rintro ⟨r, lent, unused⟩
    rcases hf : RegPool.lent.find? fun r => !p.isUsed r with _ | s
    · exact absurd unused (by simpa using List.find?_eq_none.1 hf r lent)
    · exact ⟨s, p.setUsed s true, by rw [acquire?, hf]; rfl⟩

/-- A register that is handed out is one less that is left. -/
theorem free_acquire (h : p.acquire? = some (r, q)) : p.free = q.free + 1 := by
  have taken := Takes.of_acquire? h
  have rest : (lent.filter fun s => !q.isUsed s) = (lent.filter fun s => !p.isUsed s).erase r := by
    rw [List.Nodup.erase_eq_filter (nodup_lent.filter _), List.filter_filter, taken.pool]
    refine List.filter_congr fun s _ => ?_
    rw [isUsed_setUsed]
    by_cases same : r = s
    · subst same
      simp
    · simp [same, Ne.symm same]
  have here : r ∈ lent.filter fun s => !p.isUsed s := List.mem_filter.2 ⟨taken.lent, by simp [taken.unused]⟩
  rw [free, free, List.countP_eq_length_filter, List.countP_eq_length_filter, rest, List.length_erase_of_mem here,
    Nat.sub_add_cancel (List.length_pos_of_mem here)]

end RegPool

/-! ## Pieces that are produced under a condition -/

namespace Emit

variable {α β : Type} {p : RegPool} {c d : Prop}

/-- Whether a piece of code is produced just under a condition, and all values and registers in use that it comes to are good. -/
structure Exact (x : Emit α) (p : RegPool) (c : Prop) (post : α → RegPool → Prop) : Prop where
  iff : (∃ r, x p = .ok r) ↔ c
  ends : x.Ends p post

namespace Exact

variable {post : α → RegPool → Prop}

theorem congr {x : Emit α} (h : x.Exact p c post) (same : c ↔ d) : x.Exact p d post := ⟨h.iff.trans same, h.ends⟩

theorem mono {x : Emit α} {first : α → RegPool → Prop} (h : x.Exact p c first) (hp : ∀ a q, first a q → post a q) :
    x.Exact p c post := ⟨h.iff, h.ends.mono hp⟩

/-- After a piece of code its condition is known. -/
theorem knowing {x : Emit α} (h : x.Exact p c post) : x.Exact p c fun a q => c ∧ post a q :=
  ⟨h.iff, fun r hr => ⟨h.iff.1 ⟨r, hr⟩, h.ends r hr⟩⟩

/-- Pieces in a row.  The condition for the second one is the same for all that the first one comes to. -/
theorem seq {x : Emit β} {f : β → Emit α} {first : β → RegPool → Prop} (hx : x.Exact p c first)
    (hf : ∀ b q, first b q → (f b).Exact q d post) : (x >>= f).Exact p (c ∧ d) post where
  iff := by
    constructor
    · rintro ⟨r, hr⟩
      obtain ⟨a, b, ha, hb, -⟩ := (bind_eq_ok_iff x f p r).1 hr
      exact ⟨hx.iff.1 ⟨a, ha⟩, (hf _ _ (hx.ends a ha)).iff.1 ⟨b, hb⟩⟩
    · rintro ⟨hc, hd⟩
      obtain ⟨a, ha⟩ := hx.iff.2 hc
      obtain ⟨b, hb⟩ := (hf _ _ (hx.ends a ha)).iff.2 hd
      exact ⟨_, (bind_eq_ok_iff x f p _).2 ⟨a, b, ha, hb, rfl⟩⟩
  ends := .seq fun a ha => (hf _ _ (hx.ends a ha)).ends

theorem pure {a : α} (h : post a p) : (Pure.pure a : Emit α).Exact p True post :=
  ⟨iff_true_intro ⟨_, pure_apply a p⟩, .pure h⟩

theorem fail {fault : Fault} : (Emit.fail fault : Emit α).Exact p False post :=
  ⟨iff_false_intro fun ⟨r, hr⟩ => fail_ne_ok fault r hr, .fail⟩

theorem ofExcept (e : Except Fault α) : (Emit.ofExcept e).Exact p (∃ a, e = .ok a) fun a q => q = p ∧ e = .ok a where
  iff := by
    constructor
    · rintro ⟨r, hr⟩
      obtain ⟨a, ha, -⟩ := (ofExcept_eq_ok_iff e r).1 hr
      exact ⟨a, ha⟩
    · rintro ⟨a, ha⟩
      exact ⟨_, (ofExcept_eq_ok_iff e _).2 ⟨a, ha, rfl⟩⟩
  ends := .ofExcept fun a ha => ⟨rfl, ha⟩

theorem lines (code : List Line) : (Emit.lines code).Exact p True fun _ q => q = p :=
  ⟨iff_true_intro ⟨_, rfl⟩, .lines rfl⟩

theorem instr (i : Instr) : (Emit.instr i).Exact p True fun _ q => q = p := lines [.instr i]

theorem pseudo {ps : Pseudo} (permitted : ps.fault? = none) : (Emit.pseudo ps).Exact p True fun _ q => q = p :=
  ⟨iff_true_intro ⟨_, (pseudo_eq_ok_iff ps _).2 ⟨permitted, rfl⟩⟩, .pseudo rfl⟩

theorem registers (change : RegPool → RegPool) : (Emit.registers change).Exact p True fun _ q => q = change p :=
  ⟨iff_true_intro ⟨_, rfl⟩, .registers rfl⟩

/-- A piece that is always produced, and then another. -/
theorem andThen {x : Emit Unit} {f : Unit → Emit α} {q : RegPool} (hx : x.Exact p True fun _ q' => q' = q)
    (hf : (f ()).Exact q d post) : (x >>= f).Exact p d post :=
  (hx.seq fun _ _ same => same ▸ hf).congr (iff_of_eq (true_and d))

theorem acquire (fragment : String) : (Emit.acquire fragment).Exact p (1 ≤ p.free) fun r q => p.acquire? = some (r, q) where
  iff := by
    rw [← RegPool.acquire?_isSome_iff]
    constructor
    · rintro ⟨r, hr⟩
      obtain ⟨reg, q, hq, -⟩ := (acquire_eq_ok_iff fragment r).1 hr
      exact ⟨reg, q, hq⟩
    · rintro ⟨reg, q, hq⟩
      exact ⟨_, (acquire_eq_ok_iff fragment _).2 ⟨reg, q, hq, rfl⟩⟩
  ends := by
    intro r hr
    obtain ⟨reg, q, hq, rfl⟩ := (acquire_eq_ok_iff fragment r).1 hr
    exact hq

/-- A choice with one way that leads on. -/
theorem refuse {x : Emit α} {fault : Fault} {b : Bool} (hx : b = true → x.Exact p c post) :
    (if (!b) = true then Emit.fail fault else x).Exact p (b = true ∧ c) post := by
  cases b with
  | false => exact fail.congr (by simp)
  | true => exact (hx rfl).congr (by simp)

end Exact

end Emit

/-! ## Operators -/

section

variable {site : Site} {p q q' : RegPool} {a b : Reg}

/-- Two registers that are handed out are permitted as operands of a product or a quotient that takes the place of the first. -/
theorem product_permitted (ha : a ∈ RegPool.lent) (hb : b ∈ RegPool.lent) (ne : a ≠ b) :
    (Pseudo.mul a a b).fault? = none ∧ (Pseudo.divu a a b).fault? = none ∧ (Pseudo.divt a a b).fault? = none := by
  have scratch := RegPool.isScratch_of_mem_lent ha
  have scratch' := RegPool.isScratch_of_mem_lent hb
  have nonzero := RegPool.ne_of_mem_lent ha RegPool.zero_notMem_lent
  have nonzero' := RegPool.ne_of_mem_lent hb RegPool.zero_notMem_lent
  simp [Pseudo.fault?, Pseudo.scratchFault?, Pseudo.sameFault?, Pseudo.zeroFault?, scratch, scratch', ne, nonzero, nonzero']

theorem exact_applyCode (op : BinaryOp) (ty : Ty) (ha : a ∈ RegPool.lent) (hb : b ∈ RegPool.lent) (ne : a ≠ b) :
    (applyCode op ty a b).Exact p True fun _ q => q = p := by
  obtain ⟨mul, divu, divt⟩ := product_permitted ha hb ne
  cases op with
  | mul => exact .pseudo mul
  | div =>
    refine .pseudo ?_
    split
    · exact divt
    · exact divu
  | _ => exact .lines _

theorem exact_expectTy (expected found : Ty) :
    (Emit.ofExcept (site.expectTy expected found)).Exact p (expected = found) fun _ q => q = p ∧ expected = found := by
  by_cases same : expected = found
  · refine (Emit.Exact.ofExcept _).congr ?_ |>.mono fun _ q ⟨hq, _⟩ => ⟨hq, same⟩
    rw [Site.expectTy, if_pos same]
    exact iff_of_true ⟨(), rfl⟩ same
  · refine (Emit.Exact.ofExcept _).congr ?_ |>.mono fun _ q ⟨_, he⟩ => ?_
    · rw [Site.expectTy, if_neg same]
      exact iff_of_false nofun same
    · rw [Site.expectTy, if_neg same] at he
      cases he

/-- The register of the right operand is given back. -/
theorem exact_binaryCode (op : BinaryOp) {l r : Value} (hp : p.Sound) (h : p.Takes l.reg q) (g : q.Takes r.reg q') :
    (binaryCode site op l r).Exact q' (l.ty = r.ty ∧ op.takes l.ty = true) fun y q'' => q'' = q ∧ y = ⟨op.resultTy l.ty, l.reg⟩ := by
  refine ((exact_expectTy l.ty r.ty).seq fun _ _ ⟨same, _⟩ => ?_)
  subst same
  refine (Emit.Exact.refuse fun _ => ?_).congr (iff_of_eq (and_true _))
  refine (exact_applyCode op l.ty h.lent g.lent (h.distinct g)).andThen ?_
  refine (Emit.Exact.registers _).andThen ?_
  rw [g.pool, RegPool.release_acquired (h.sound hp) g.unused]
  exact .pure ⟨rfl, rfl⟩

theorem exact_unaryCode (op : UnaryOp) (v : Value) :
    (unaryCode site op v).Exact p (v.ty = op.operandTy) fun y q => q = p ∧ y = v := by
  cases op with
  | not =>
    refine ((exact_expectTy (.scalar .bool) v.ty).seq fun _ _ ⟨same, _⟩ => ?_).congr ((iff_of_eq (and_true _)).trans eq_comm)
    subst same
    exact (Emit.Exact.lines _).andThen (.pure ⟨rfl, rfl⟩)
  | neg =>
    refine ((exact_expectTy (.scalar .int) v.ty).seq fun _ _ ⟨same, _⟩ => ?_).congr ((iff_of_eq (and_true _)).trans eq_comm)
    subst same
    exact (Emit.Exact.instr _).andThen (.pure ⟨rfl, rfl⟩)

end

/-! ## Steps of places -/

section

variable {site : Site} {p q q' : RegPool} {base : Place} {v : Value}

theorem exact_literalCode (s : Scalar) (w : Word) :
    (literalCode site s w).Exact p (1 ≤ p.free) fun x q => p.acquire? = some (x.reg, q) ∧ x.ty = .scalar s := by
  refine ((Emit.Exact.acquire site.fragment).seq fun r q hq => ?_).congr (iff_of_eq (and_true _))
  exact (Emit.Exact.pseudo rfl).andThen (.pure ⟨hq, rfl⟩)

theorem exact_offsetCode (dst base : Reg) (offset : Int) : (offsetCode dst base offset).Exact p True fun _ q => q = p := by
  rw [offsetCode]
  split
  · exact .instr _
  · exact (Emit.Exact.pseudo rfl).andThen (.instr _)

/-- A variable is located where it is known, with its type. -/
theorem locate_iff {name : String} {ty : Ty} : (∃ r n, site.locate name = .ok (r, n, ty)) ↔ (Place.var name).HasTy site ty := by
  rw [hasTy_var_iff, Site.locate]
  rcases site.self.frame.find? name with _ | u
  · rcases site.scope.global? name with _ | v
    · exact ⟨nofun, nofun⟩
    · constructor
      · rintro ⟨_, _, ⟨⟩⟩
        exact ⟨v, rfl, rfl⟩
      · rintro ⟨_, ⟨⟩, rfl⟩
        exact ⟨_, _, rfl⟩
  · constructor
    · rintro ⟨_, _, ⟨⟩⟩
      exact ⟨u, rfl, rfl⟩
    · rintro ⟨_, ⟨⟩, rfl⟩
      exact ⟨_, _, rfl⟩

theorem exact_varCode (name : String) : (varCode site name).Exact p ((∃ ty, (Place.var name).HasTy site ty) ∧ 1 ≤ p.free)
    fun x q => p.acquire? = some (x.reg, q) ∧ (Place.var name).HasTy site x.ty := by
  refine ((Emit.Exact.ofExcept (site.locate name)).seq (d := 1 ≤ p.free) ?_).congr ?_
  · rintro ⟨base, offset, ty⟩ _ ⟨rfl, located⟩
    refine ((Emit.Exact.acquire site.fragment).seq fun r q hq => ?_).congr (iff_of_eq (and_true _))
    exact (exact_offsetCode r base offset).andThen (.pure ⟨hq, locate_iff.1 ⟨base, offset, located⟩⟩)
  · refine and_congr_left fun _ => ?_
    simp only [← locate_iff]
    constructor
    · rintro ⟨⟨base, offset, ty⟩, located⟩
      exact ⟨ty, base, offset, located⟩
    · rintro ⟨ty, base, offset, located⟩
      exact ⟨_, located⟩

theorem exact_elementsCode (v : Value) :
    (elementsCode site v).Exact p (∃ elem, v.ty.elem? = some elem) fun elem q => q = p ∧ v.ty.elem? = some elem := by
  rw [elementsCode]
  rcases v.ty with s | name | target | ⟨elem, length⟩
  · exact Emit.Exact.fail.congr ⟨nofun, nofun⟩
  · exact Emit.Exact.fail.congr ⟨nofun, nofun⟩
  · exact Emit.Exact.congr ((Emit.Exact.instr _).andThen (.pure ⟨rfl, rfl⟩)) (iff_of_true trivial ⟨target, rfl⟩)
  · exact Emit.Exact.congr (.pure ⟨rfl, rfl⟩) (iff_of_true trivial ⟨elem, rfl⟩)

/-- What a place is typed as is what it has the type of. -/
theorem hasTy_iff_eq (hb : base.HasTy site v.ty) {ty : Ty} : base.HasTy site ty ↔ v.ty = ty :=
  ⟨hb.unique, fun same => same ▸ hb⟩

theorem exact_fieldCode (hb : base.HasTy site v.ty) (name : String) :
    (fieldCode site v name).Exact p (∃ ty, (Place.field base name).HasTy site ty)
      fun y q => q = p ∧ y.reg = v.reg ∧ (Place.field base name).HasTy site y.ty := by
  simp only [hasTy_field_iff, hasTy_iff_eq hb]
  rw [fieldCode]
  rcases v.ty with s | owner | target | ⟨elem, length⟩
  · exact Emit.Exact.fail.congr ⟨False.elim, by rintro ⟨_, _, _, ⟨⟩, _⟩⟩
  · refine ((Emit.Exact.ofExcept (site.scope.types.field owner name)).seq (d := True) ?_).congr ?_
    · rintro u _ ⟨rfl, found⟩
      have typed : ∃ owner' v', Ty.struct owner = .struct owner' ∧ site.scope.types.field owner' name = .ok v' ∧ u.ty = v'.ty :=
        ⟨owner, u, rfl, found, rfl⟩
      split
      · exact (exact_offsetCode _ _ _).andThen (.pure ⟨rfl, rfl, typed⟩)
      · exact .pure ⟨rfl, rfl, typed⟩
    · constructor
      · rintro ⟨⟨u, found⟩, -⟩
        exact ⟨u.ty, owner, u, rfl, found, rfl⟩
      · rintro ⟨_, _, u, ⟨⟩, found, rfl⟩
        exact ⟨⟨u, found⟩, trivial⟩
  · exact Emit.Exact.fail.congr ⟨False.elim, by rintro ⟨_, _, _, ⟨⟩, _⟩⟩
  · exact Emit.Exact.fail.congr ⟨False.elim, by rintro ⟨_, _, _, ⟨⟩, _⟩⟩

theorem exact_derefCode (hb : base.HasTy site v.ty) :
    (derefCode site v).Exact p (∃ ty, (Place.deref base).HasTy site ty)
      fun y q => q = p ∧ y.reg = v.reg ∧ (Place.deref base).HasTy site y.ty := by
  simp only [hasTy_deref_iff, hasTy_iff_eq hb]
  rw [derefCode]
  rcases v.ty with s | owner | target | ⟨elem, length⟩
  · exact Emit.Exact.fail.congr ⟨False.elim, by rintro ⟨_, ⟨⟩⟩⟩
  · exact Emit.Exact.fail.congr ⟨False.elim, by rintro ⟨_, ⟨⟩⟩⟩
  · exact Emit.Exact.congr ((Emit.Exact.instr _).andThen (.pure ⟨rfl, rfl, rfl⟩)) (iff_of_true trivial ⟨target, rfl⟩)
  · exact Emit.Exact.fail.congr ⟨False.elim, by rintro ⟨_, ⟨⟩⟩⟩

theorem isPowerOfTwo_iff {n : Nat} : 1 <<< n.log2 = n ↔ n.isPowerOfTwo := by
  rw [Nat.one_shiftLeft]
  constructor
  · intro h
    exact ⟨n.log2, h.symm⟩
  · rintro ⟨k, rfl⟩
    rw [Nat.log2_two_pow]

/-- A factor that is no power of two takes a register of its own. -/
theorem exact_scaleCode (hp : p.Sound) {i : Reg} (lent : i ∈ RegPool.lent) (used : p.isUsed i = true) (n : Nat) :
    (scaleCode site i n).Exact p (n.isPowerOfTwo ∨ 1 ≤ p.free) fun _ q => q = p := by
  rw [scaleCode]
  by_cases pow : 1 <<< n.log2 = n
  · rw [if_pos pow]
    have always := iff_of_true trivial (Or.inl (b := 1 ≤ p.free) (isPowerOfTwo_iff.1 pow))
    split
    · exact Emit.Exact.congr (.pure rfl) always
    · exact (Emit.Exact.instr _).congr always
  · rw [if_neg pow]
    refine ((Emit.Exact.acquire site.fragment).seq (d := True) fun r q hq => ?_).congr ?_
    · have taken := RegPool.Takes.of_acquire? hq
      have ne : i ≠ r := by
        rintro rfl
        rw [taken.unused] at used
        cases used
      refine (Emit.Exact.pseudo rfl).andThen ((Emit.Exact.pseudo (product_permitted lent taken.lent ne).1).andThen ?_)
      refine (Emit.Exact.registers _).mono fun _ _ same => ?_
      rw [same, taken.pool, RegPool.release_acquired hp taken.unused]
    · rw [and_true, or_iff_right (isPowerOfTwo_iff.not.1 pow)]

/-- The register of the index is given back. -/
theorem exact_indexCode {address : Reg} (elem : Ty) {i : Value} (hq : q.Sound) (g : q.Takes i.reg q') :
    (indexCode site address elem i).Exact q'
      (i.ty.IsNumber ∧ ∃ n, site.scope.types.sizeOf elem = .ok n ∧ (n.isPowerOfTwo ∨ 1 ≤ q'.free))
      fun y q'' => q'' = q ∧ y = ⟨elem, address⟩ := by
  have used : q'.isUsed i.reg = true := by rw [g.pool, RegPool.isUsed_setUsed, if_pos rfl]
  have number : (decide (i.ty = .scalar .int) || decide (i.ty = .scalar .uint)) = true ↔ i.ty.IsNumber := by
    rw [Bool.or_eq_true, decide_eq_true_iff, decide_eq_true_iff, Ty.IsNumber]
  refine (Emit.Exact.refuse fun _ => ?_).congr (and_congr_left fun _ => number)
  rcases hs : site.scope.types.sizeOf elem with e | n
  · refine ((Emit.Exact.ofExcept _).seq (d := True) ?_).congr ?_
    · rintro _ _ ⟨_, ⟨⟩⟩
    · constructor
      · rintro ⟨⟨_, ⟨⟩⟩, -⟩
      · rintro ⟨_, ⟨⟩, -⟩
  · refine ((Emit.Exact.ofExcept _).seq (d := n.isPowerOfTwo ∨ 1 ≤ q'.free) ?_).congr ?_
    · rintro _ _ ⟨rfl, ⟨⟩⟩
      refine ((exact_scaleCode (g.sound hq) g.lent used n).seq fun _ _ same => ?_).congr (iff_of_eq (and_true _))
      subst same
      refine (Emit.Exact.instr _).andThen ((Emit.Exact.registers _).andThen ?_)
      rw [g.pool, RegPool.release_acquired hq g.unused]
      exact .pure ⟨rfl, rfl⟩
    · constructor
      · rintro ⟨-, fine⟩
        exact ⟨n, rfl, fine⟩
      · rintro ⟨_, ⟨⟩, fine⟩
        exact ⟨⟨n, rfl⟩, fine⟩

theorem exact_loadCode (v : Value) : (loadCode site v).Exact p (v.ty.isWord = true) fun y q => q = p ∧ y = v := by
  refine (Emit.Exact.refuse fun _ => ?_).congr (iff_of_eq (and_true _))
  exact (Emit.Exact.instr _).andThen (.pure ⟨rfl, rfl⟩)

end

/-! ## Expressions and places -/

/-- Whether an expression has a type, fits, and needs no more than so many registers. -/
def Expr.Suits (site : Site) (e : Expr) (n : Nat) : Prop :=
  (∃ ty, e.HasTy site ty) ∧ e.fits = true ∧ e.sized site = true ∧ e.need site ≤ n

/-- Whether a place has a type, fits, and needs no more than so many registers. -/
def Place.Suits (site : Site) (place : Place) (n : Nat) : Prop :=
  (∃ ty, place.HasTy site ty) ∧ place.fits = true ∧ place.sized site = true ∧ place.need site ≤ n

section

variable {site : Site} {p : RegPool}

theorem numberWord_iff (e : Expr) (n : Nat) (isUnsigned : Bool) :
    (∃ w, numberWord e n isUnsigned = .ok w) ↔ (Expr.number n isUnsigned).fits = true := by
  rw [numberWord, Expr.fits, decide_eq_true_iff]
  by_cases small : n < if isUnsigned then 0x100000000 else 0x80000000
  · rw [if_pos small]
    exact iff_of_true ⟨_, rfl⟩ small
  · rw [if_neg small]
    exact iff_of_false (fun ⟨_, hw⟩ => nomatch hw) small

theorem suits_place_iff {place : Place} {n : Nat} : (Expr.place place).Suits site n ↔
    place.Suits site n ∧ ∃ ty, place.HasTy site ty ∧ ty.isWord = true := by
  simp only [Expr.Suits, Place.Suits, hasTy_place_iff, Expr.fits, Expr.sized, Expr.need]
  constructor
  · rintro ⟨⟨ty, hty, word⟩, rest⟩
    exact ⟨⟨⟨ty, hty⟩, rest⟩, ty, hty, word⟩
  · rintro ⟨⟨-, rest⟩, typed⟩
    exact ⟨typed, rest⟩

theorem suits_unary_iff {op : UnaryOp} {e : Expr} {n : Nat} : (Expr.unary op e).Suits site n ↔
    e.Suits site n ∧ ∃ ty, e.HasTy site ty ∧ ty = op.operandTy := by
  simp only [Expr.Suits, hasTy_unary_iff, Expr.fits, Expr.sized, Expr.need]
  constructor
  · rintro ⟨⟨_, he, rfl⟩, rest⟩
    exact ⟨⟨⟨_, he⟩, rest⟩, _, he, rfl⟩
  · rintro ⟨⟨-, rest⟩, _, he, rfl⟩
    exact ⟨⟨_, he, rfl⟩, rest⟩

theorem suits_binary_iff {op : BinaryOp} {l r : Expr} {n : Nat} : (Expr.binary op l r).Suits site n ↔
    l.Suits site n ∧ ((∃ ty, r.HasTy site ty) ∧ r.fits = true ∧ r.sized site = true ∧ 1 + r.need site ≤ n) ∧
      ∃ ty, l.HasTy site ty ∧ r.HasTy site ty ∧ op.takes ty = true := by
  simp only [Expr.Suits, hasTy_binary_iff, Expr.fits, Expr.sized, Expr.need, Bool.and_eq_true, Nat.max_le]
  constructor
  · rintro ⟨⟨_, ty, hl, hr, takes, rfl⟩, ⟨fitsL, fitsR⟩, ⟨sizedL, sizedR⟩, needL, needR⟩
    exact ⟨⟨⟨ty, hl⟩, fitsL, sizedL, needL⟩, ⟨⟨ty, hr⟩, fitsR, sizedR, needR⟩, ty, hl, hr, takes⟩
  · rintro ⟨⟨-, fitsL, sizedL, needL⟩, ⟨-, fitsR, sizedR, needR⟩, ty, hl, hr, takes⟩
    exact ⟨⟨_, ty, hl, hr, takes, rfl⟩, ⟨fitsL, fitsR⟩, ⟨sizedL, sizedR⟩, needL, needR⟩

theorem suits_field_iff {base : Place} {name : String} {n : Nat} : (Place.field base name).Suits site n ↔
    base.Suits site n ∧ ∃ ty, (Place.field base name).HasTy site ty := by
  simp only [Place.Suits, hasTy_field_iff, Place.fits, Place.sized, Place.need]
  constructor
  · rintro ⟨⟨ty, owner, v, hb, found⟩, rest⟩
    exact ⟨⟨⟨_, hb⟩, rest⟩, ty, owner, v, hb, found⟩
  · rintro ⟨⟨-, rest⟩, typed⟩
    exact ⟨typed, rest⟩

theorem suits_deref_iff {base : Place} {n : Nat} : (Place.deref base).Suits site n ↔
    base.Suits site n ∧ ∃ ty, (Place.deref base).HasTy site ty := by
  simp only [Place.Suits, hasTy_deref_iff, Place.fits, Place.sized, Place.need]
  constructor
  · rintro ⟨⟨ty, hb⟩, rest⟩
    exact ⟨⟨⟨_, hb⟩, rest⟩, ty, hb⟩
  · rintro ⟨⟨-, rest⟩, typed⟩
    exact ⟨typed, rest⟩

/-- With the index in a register, one is left if the size of the elements is no power of two. -/
theorem suits_index_iff {base : Place} {i : Expr} {n : Nat} : (Place.index base i).Suits site n ↔
    base.Suits site n ∧ (∃ ty, base.HasTy site ty ∧ ∃ elem, ty.elem? = some elem) ∧
      ((∃ ty, i.HasTy site ty) ∧ i.fits = true ∧ i.sized site = true ∧ 1 + i.need site ≤ n) ∧
      (∃ ty, i.HasTy site ty ∧ ty.IsNumber) ∧ ∃ size, base.elemSize? site = some size ∧ (size.isPowerOfTwo ∨ 3 ≤ n) := by
  simp only [Place.Suits, hasTy_index_iff, Place.fits, Place.sized, Place.need, Bool.and_eq_true, Nat.max_le]
  constructor
  · rintro ⟨⟨elem, row, ity, hb, elements, hi, number⟩, ⟨fitsB, fitsI⟩, ⟨⟨sizedB, sizedI⟩, sized⟩, needB, needI, factor⟩
    obtain ⟨size, hs⟩ := Option.isSome_iff_exists.1 sized
    refine ⟨⟨⟨row, hb⟩, fitsB, sizedB, needB⟩, ⟨row, hb, elem, elements⟩, ⟨⟨ity, hi⟩, fitsI, sizedI, needI⟩,
      ⟨ity, hi, number⟩, size, hs, ?_⟩
    rw [hs, Option.all_some] at factor
    by_cases pow : size.isPowerOfTwo
    · exact .inl pow
    · rw [if_neg (by simpa using pow)] at factor
      exact .inr factor
  · rintro ⟨⟨-, fitsB, sizedB, needB⟩, ⟨row, hb, elem, elements⟩, ⟨-, fitsI, sizedI, needI⟩, ⟨ity, hi, number⟩, size, hs, factor⟩
    refine ⟨⟨elem, row, ity, hb, elements, hi, number⟩, ⟨fitsB, fitsI⟩, ⟨⟨sizedB, sizedI⟩, by rw [hs]; rfl⟩, needB, needI, ?_⟩
    rw [hs, Option.all_some]
    rcases factor with pow | three
    · rw [if_pos (decide_eq_true pow)]
      omega
    · split <;> omega

/-- What comes after a register is taken has one less. -/
theorem suits_acquired {e : Expr} {r : Reg} {q : RegPool} (h : p.acquire? = some (r, q)) : e.Suits site q.free ↔
    (∃ ty, e.HasTy site ty) ∧ e.fits = true ∧ e.sized site = true ∧ 1 + e.need site ≤ p.free := by
  rw [Expr.Suits, RegPool.free_acquire h, Nat.add_comm 1, Nat.add_le_add_iff_right]

mutual

/-- There is code for an expression just if it suits the registers that are left.  It leaves the lowest of them in use. -/
theorem exact_exprCode : ∀ (e : Expr) {p : RegPool}, p.Sound →
    (exprCode site e).Exact p (e.Suits site p.free) fun x q => p.acquire? = some (x.reg, q) ∧ e.HasTy site x.ty
  | .number n isUnsigned, p, hp => by
    unfold exprCode
    refine ((Emit.Exact.ofExcept (numberWord _ n isUnsigned)).seq (d := 1 ≤ p.free) ?_).congr ?_
    · rintro w _ ⟨rfl, -⟩
      refine (exact_literalCode _ w).mono fun x q ⟨hq, ty⟩ => ⟨hq, ?_⟩
      rw [hasTy_number_iff, ty]
    · rw [numberWord_iff]
      constructor
      · rintro ⟨fits, some_left⟩
        exact ⟨⟨_, hasTy_number_iff.2 rfl⟩, fits, rfl, some_left⟩
      · rintro ⟨-, fits, -, some_left⟩
        exact ⟨fits, some_left⟩
  | .bool b, p, hp => by
    unfold exprCode
    refine ((exact_literalCode .bool _).mono ?_).congr ?_
    · rintro x q ⟨hq, ty⟩
      rw [ty]
      exact ⟨hq, .bool⟩
    · exact ⟨fun some_left => ⟨⟨_, .bool⟩, rfl, rfl, some_left⟩, fun suits => suits.2.2.2⟩
  | .char c, p, hp => by
    unfold exprCode
    refine ((exact_literalCode .char _).mono ?_).congr ?_
    · rintro x q ⟨hq, ty⟩
      rw [ty]
      exact ⟨hq, .char⟩
    · exact ⟨fun some_left => ⟨⟨_, .char⟩, rfl, rfl, some_left⟩, fun suits => suits.2.2.2⟩
  | .place place, p, hp => by
    unfold exprCode
    refine ((exact_placeCode place hp).seq fun x q ⟨hq, hx⟩ => ?_).congr suits_place_iff.symm
    refine ((exact_loadCode x).knowing.mono ?_).congr (by rw [hx.exists_and_iff])
    rintro _ _ ⟨word, rfl, rfl⟩
    exact ⟨hq, .place hx word⟩
  | .unary op e, p, hp => by
    unfold exprCode
    refine ((exact_exprCode e hp).seq fun x q ⟨hq, hx⟩ => ?_).congr suits_unary_iff.symm
    refine ((exact_unaryCode op x).knowing.mono ?_).congr (by rw [hx.exists_and_iff])
    rintro _ _ ⟨same, rfl, rfl⟩
    rw [same] at hx
    exact ⟨hq, hasTy_unary_iff.2 ⟨hx, same⟩⟩
  | .binary op l r, p, hp => by
    unfold exprCode
    refine ((exact_exprCode l hp).seq fun x q ⟨hq, hx⟩ => ?_).congr suits_binary_iff.symm
    have takenL := RegPool.Takes.of_acquire? hq
    refine (((exact_exprCode r (takenL.sound hp)).congr (suits_acquired hq)).seq fun y q' ⟨hq', hy⟩ => ?_)
    refine ((exact_binaryCode op hp takenL (.of_acquire? hq')).knowing.mono ?_).congr ?_
    · rintro _ _ ⟨⟨same, takes⟩, rfl, rfl⟩
      exact ⟨hq, hasTy_binary_iff.2 ⟨x.ty, hx, same ▸ hy, takes, rfl⟩⟩
    · rw [hx.exists_and_iff]
      exact and_congr_left fun _ => ⟨fun same => same ▸ hy, fun hy' => hy'.unique hy⟩

/-- There is code for a place just if it suits the registers that are left.  It leaves the lowest of them in use. -/
theorem exact_placeCode : ∀ (place : Place) {p : RegPool}, p.Sound →
    (placeCode site place).Exact p (place.Suits site p.free)
      fun x q => p.acquire? = some (x.reg, q) ∧ place.HasTy site x.ty
  | .var name, p, hp => by
    unfold placeCode
    refine (exact_varCode name).congr ?_
    constructor
    · rintro ⟨typed, some_left⟩
      exact ⟨typed, rfl, rfl, some_left⟩
    · rintro ⟨typed, -, -, some_left⟩
      exact ⟨typed, some_left⟩
  | .index base i, p, hp => by
    unfold placeCode
    refine ((exact_placeCode base hp).seq fun x q ⟨hq, hx⟩ => ?_).congr suits_index_iff.symm
    have taken := RegPool.Takes.of_acquire? hq
    refine (((exact_elementsCode x).congr (by rw [hx.exists_and_iff])).seq ?_)
    rintro elem q ⟨rfl, elements⟩
    refine (((exact_exprCode i (taken.sound hp)).congr (suits_acquired hq)).seq fun y q' ⟨hq', hy⟩ => ?_)
    refine ((exact_indexCode elem (taken.sound hp) (.of_acquire? hq')).knowing.mono ?_).congr ?_
    · rintro _ _ ⟨⟨number, -⟩, rfl, rfl⟩
      exact ⟨hq, .index hx elements hy number⟩
    · rw [hy.exists_and_iff]
      refine and_congr_right fun _ => exists_congr fun size => and_congr ?_ (or_congr_right ?_)
      · rw [elemSize?_eq_some_iff, hx.exists_and_iff, elements]
        simp only [Option.some.injEq, exists_eq_left']
      · rw [RegPool.free_acquire hq, RegPool.free_acquire hq']
        omega
  | .field base name, p, hp => by
    unfold placeCode
    refine ((exact_placeCode base hp).seq fun x q ⟨hq, hx⟩ => ?_).congr suits_field_iff.symm
    refine (exact_fieldCode hx name).mono ?_
    rintro y _ ⟨rfl, same, typed⟩
    exact ⟨same ▸ hq, typed⟩
  | .deref base, p, hp => by
    unfold placeCode
    refine ((exact_placeCode base hp).seq fun x q ⟨hq, hx⟩ => ?_).congr suits_deref_iff.symm
    refine (exact_derefCode hx).mono ?_
    rintro y _ ⟨rfl, same, typed⟩
    exact ⟨same ▸ hq, typed⟩

end

end

/-- In any context and with any registers in use, there is code for an expression just if it has a type, its numbers are words, the
    elements that it indexes have sizes and it does not need more registers than are left.  Its type is that of the code. -/
theorem compiles_exactly (site : Site) (e : Expr) {p : RegPool} (made : p.Made) :
    ((∃ r, exprCode site e p = .ok r) ↔
      (∃ ty, e.HasTy site ty) ∧ e.fits = true ∧ e.sized site = true ∧ e.need site ≤ p.free) ∧
    ∀ r, exprCode site e p = .ok r → ∀ ty, e.HasTy site ty ↔ ty = r.value.ty := by
  have exact_code : (exprCode site e).Exact p (e.Suits site p.free) _ := exact_exprCode e made.sound
  refine ⟨exact_code.iff, ?_⟩
  intro r hr ty
  obtain ⟨-, typed⟩ := exact_code.ends r hr
  constructor
  · intro hty
    exact hty.unique typed
  · rintro rfl
    exact typed

/-- A program with elements of three words. -/
def tripleProgram : Program := ⟨[
  .struct "triple" [⟨.scalar .int, "a"⟩, ⟨.scalar .int, "b"⟩, ⟨.scalar .int, "c"⟩],
  .global ⟨.array (.struct "triple") 4, "rows"⟩,
  .global ⟨.scalar .uint, "n"⟩,
  .function ⟨"main", none, [], [], []⟩]⟩

/-- The names of that program. -/
def tripleScope : Scope where
  types := ⟨[⟨"triple", some ⟨[⟨"a", .scalar .int, 0⟩, ⟨"b", .scalar .int, 4⟩, ⟨"c", .scalar .int, 8⟩], 12⟩⟩]⟩
  functions := [⟨"main", none, {}, 0⟩]
  globals? := some ⟨[⟨"rows", .array (.struct "triple") 4, 0⟩, ⟨"n", .scalar .uint, 48⟩], 52⟩

/-- The expression `rows[n + 1u].b * 3`. -/
def tripleExpr : Expr :=
  .binary .mul (.place (.field (.index (.var "rows") (.binary .add (.place (.var "n")) (.number 1 true))) "b")) (.number 3 false)

/-- That expression takes three registers: there is code for it if three are left, but not if only two are. -/
theorem compiles_exactly_triple :
    Scope.ofProgram {} tripleProgram = .ok tripleScope ∧
    ∃ site : Site, site.scope = tripleScope ∧ tripleExpr.HasTy site (.scalar .int) ∧ tripleExpr.need site = 3 ∧
      (RegPool.nested 20).free = 3 ∧ (∃ r, exprCode site tripleExpr (.nested 20) = .ok r ∧ r.value.ty = .scalar .int) ∧
      (RegPool.nested 21).free = 2 ∧ ¬ ∃ r, exprCode site tripleExpr (.nested 21) = .ok r := by
  let site : Site := ⟨tripleScope, ⟨"main", none, {}, 0⟩, ""⟩
  have typed : tripleExpr.HasTy site (.scalar .int) := (Expr.ty?_eq_some_iff _).1 (by decide +kernel)
  have need : tripleExpr.need site = 3 := by decide +kernel
  have three : (RegPool.nested 20).free = 3 := by decide +kernel
  have two : (RegPool.nested 21).free = 2 := by decide +kernel
  obtain ⟨some_code, types⟩ := compiles_exactly site tripleExpr (RegPool.made_nested 20)
  obtain ⟨r, hr⟩ := some_code.2 ⟨⟨_, typed⟩, by decide +kernel, by decide +kernel, by rw [need, three]⟩
  refine ⟨by rfl, site, rfl, typed, need, three, ⟨r, hr, ((types r hr _).1 typed).symm⟩, two, ?_⟩
  rw [(compiles_exactly site tripleExpr (RegPool.made_nested 21)).1, need, two]
  omega

end M32.Lang
