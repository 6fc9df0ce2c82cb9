/-
  What the code of expressions and places computes.

  1. `Gives` is the result of a piece of code with a value: the value is in a register that was not in use, and all
     registers in use and memory are as they were.
  2. Code that gives something leaves the view of the machine as it was (`Keeps.view`), so later code finds what it would have
     found before.
  3. `arrives_exprCode` and `arrives_placeCode`: the code of an expression or a place gives what the machine finds, if all that
     is loaded on the way can be accessed.
-/
import M32.Proofs.Lang.Code.Operators

namespace M32.Lang

open Machine

/-- What a piece of code for a value leads to. -/
structure Gives (p : RegPool) (s : State) (ty : Ty) (w : Word) (v : Value) (q : RegPool) (t : State) : Prop
    extends RegPool.Takes p v.reg q where
  ty : v.ty = ty
  keeps : Keeps p s t
  word : t.reg v.reg = w

variable {m : Linked} {start : Nat} {p q : RegPool} {s t u : State} {site : Site} {v : Value} {ty : Ty} {w : Word}

/-! ## Views and registers -/

theorem Keeps.view (h : Keeps p s t) : View.of t = View.of s := by
  rw [View.of, View.of, h.regs .sp p.guards_sp, h.regs .bp p.guards_bp, h.memory]

theorem Keeps.access (h : Keeps p s t) {loads : List Word} (ha : ∀ a ∈ loads, CanAccess s a) : ∀ a ∈ loads, CanAccess t a := by
  intro a mem
  exact (ha a mem).of_size (by rw [h.memory])

namespace Gives

/-- Code that changes nothing but the register of the value and scratch registers gives another value there. -/
theorem change {ty' : Ty} {w' : Word} (h : Gives p s ty w v q t) (memory : u.memory = t.memory)
    (only : Only (v.reg :: scratch) t.reg u.reg) (word : u.reg v.reg = w') : Gives p s ty' w' ⟨ty', v.reg⟩ q u where
  toTakes := h.toTakes
  ty := rfl
  keeps := by
    refine h.keeps.trans (.of_only _ memory only ?_)
    rintro r (_ | ⟨_, hr⟩)
    · exact h.not_guards
    · exact not_guards_scratch p r hr
  word := word

theorem set {ty' : Ty} {w' : Word} (h : Gives p s ty w v q t) (memory : u.memory = t.memory)
    (regs : u.reg = setReg t.reg v.reg w') : Gives p s ty' w' ⟨ty', v.reg⟩ q u := by
  refine h.change memory ?_ ?_
  · rw [regs]
    exact (Only.refl _ _).set (by simp) _
  · rw [regs, setReg_self h.nonzero]

/-- The value is still there after code for another value. -/
theorem kept {ty' : Ty} {w' : Word} {v' : Value} {q' : RegPool} (h : Gives p s ty w v q t) (g : Gives q t ty' w' v' q' u) :
    u.reg v.reg = w := (g.keeps.regs v.reg h.guards).trans h.word

/-- A second value in between is given up. -/
theorem release {ty' ty'' : Ty} {w' w'' : Word} {v' : Value} {q' : RegPool} {x : State} (h : Gives p s ty w v q t)
    (hp : p.Sound) (g : Gives q t ty' w' v' q' u) (memory : x.memory = u.memory)
    (kept : ∀ r, q'.Guards r → r ≠ v.reg → r ≠ v'.reg → x.reg r = u.reg r) (word : x.reg v.reg = w'') :
    Gives p s ty'' w'' ⟨ty'', v.reg⟩ (q'.release v'.reg) x where
  toTakes := h.toTakes.release hp g.toTakes
  ty := rfl
  keeps := by
    have first : Keeps (p.setUsed v.reg true) t u := h.pool ▸ g.keeps
    refine h.keeps.trans (first.of_setUsed.trans ⟨memory, fun r hr => ?_⟩)
    have guarded : q.Guards r := h.pool ▸ hr.setUsed v.reg
    refine kept r (g.pool ▸ guarded.setUsed v'.reg) ?_ ?_
    · rintro rfl
      exact h.not_guards hr
    · rintro rfl
      exact g.not_guards guarded
  word := word

end Gives

/-! ## Constants and variables -/

theorem arrives_literalCode {sc : Scalar} {post : Value → RegPool → State → Prop}
    (h : ∀ v q t, Gives p s (.scalar sc) w v q t → post v q t) : (literalCode site sc w).Arrives m start p s post := by
  refine .seq (.acquire fun r q taken => .seq (.gpr fun t memory regs => .pure (h _ _ _ ?_)))
  refine ⟨taken, rfl, .of_only [r] memory ?_ ?_, ?_⟩
  · rw [regs]
    exact (Only.refl _ _).set (by simp) _
  · rintro x (_ | ⟨_, hx⟩)
    · exact taken.not_guards
    · cases hx
  · rw [regs, setReg_self taken.nonzero]

/-- The base and the distance of a variable are those of its address. -/
theorem locate_eq {name : String} {base : Reg} {offset : Nat} (hl : site.locate name = .ok (base, offset, ty)) :
    base ≠ .k1 ∧ site.named? (.of s) name = some ⟨ty, s.reg base + UInt32.ofNat offset, []⟩ := by
  unfold Site.locate at hl
  unfold Site.named?
  cases hf : site.self.frame.find? name with
  | some x =>
    rw [hf] at hl
    cases hl
    exact ⟨by decide, rfl⟩
  | none =>
    cases hg : site.scope.global? name with
    | some x =>
      rw [hf, hg] at hl
      cases hl
      exact ⟨by decide, rfl⟩
    | none =>
      rw [hf, hg] at hl
      cases hl

theorem arrives_varCode {name : String} {f : Found} {post : Value → RegPool → State → Prop}
    (hf : site.named? (.of s) name = some f) (h : ∀ v q t, Gives p s f.ty f.word v q t → post v q t) :
    (varCode site name).Arrives m start p s post := by
  refine .seq (.ofExcept fun (base, offset, ty') located => .seq (.acquire fun r q taken => ?_))
  obtain ⟨plain, named⟩ := locate_eq (s := s) located
  obtain rfl : f = ⟨ty', s.reg base + UInt32.ofNat offset, []⟩ := Option.some.inj (hf.symm.trans named)
  refine .seq (arrives_offsetCode taken.nonzero plain fun t memory only sum => .pure (h _ _ _ ?_))
  refine ⟨taken, rfl, .of_only _ memory only ?_, ?_⟩
  · rintro x (_ | ⟨_, _ | ⟨_, hx⟩⟩)
    · exact taken.not_guards
    · exact p.not_guards_k1
    · cases hx
  · rw [sum, Word.ofInt_natCast]

/-! ## Steps of places -/

theorem arrives_loadCode {a : Word} {post : Value → RegPool → State → Prop} (g : Gives p s ty a v q t) (access : CanAccess s a)
    (h : ∀ v q t, Gives p s ty (s.memory.read a) v q t → post v q t) : (loadCode site v).Arrives m start q t post := by
  have address : t.reg v.reg + Word.ofImm 0 = a := by
    rw [g.word]
    exact UInt32.add_zero _
  have reached : CanAccess t a := access.of_size (by rw [g.keeps.memory])
  refine .ite (fun _ => .fail) fun _ => .seq (.load (by rwa [address]) fun u memory regs => .pure (h _ _ _ ?_))
  rw [address, g.keeps.memory] at regs
  have given : Gives p s ty (s.memory.read a) ⟨ty, v.reg⟩ q u := g.set memory regs
  rwa [← g.ty] at given ⊢

/-- Loading the address that a pointer holds. -/
theorem arrives_pointer {target : Ty} {a : Word} {post : Unit → RegPool → State → Prop} (g : Gives p s ty a v q t)
    (access : CanAccess s a) (h : ∀ u, Gives p s target (s.memory.read a) ⟨target, v.reg⟩ q u → post () q u) :
    (Emit.instr (.lw v.reg v.reg 0)).Arrives m start q t post := by
  have address : t.reg v.reg + Word.ofImm 0 = a := by
    rw [g.word]
    exact UInt32.add_zero _
  have reached : CanAccess t a := access.of_size (by rw [g.keeps.memory])
  refine .load (by rwa [address]) fun u memory regs => h u ?_
  rw [address, g.keeps.memory] at regs
  exact g.set memory regs

variable {f : Found}

theorem arrives_elementsCode {first : Found} {post : Ty → RegPool → State → Prop} (g : Gives p s f.ty f.word v q t)
    (he : f.elements? (.of s) = some first) (access : ∀ a ∈ first.loads, CanAccess s a)
    (h : ∀ u, Gives p s first.ty first.word ⟨first.ty, v.reg⟩ q u → post first.ty q u) :
    (elementsCode site v).Arrives m start q t post := by
  obtain ⟨ty, a, loads⟩ := f
  rw [elementsCode, g.ty]
  cases ty with
  | array elem length =>
    cases he
    exact .pure (h t ⟨g.toTakes, rfl, g.keeps, g.word⟩)
  | pointer target =>
    cases he
    exact .seq (arrives_pointer g (access a (by simp [Found.load])) fun u given => .pure (h u given))
  | scalar sc => cases he
  | struct name => cases he

theorem arrives_derefCode {found : Found} {post : Value → RegPool → State → Prop} (g : Gives p s f.ty f.word v q t)
    (he : f.target? (.of s) = some found) (access : ∀ a ∈ found.loads, CanAccess s a)
    (h : ∀ v q t, Gives p s found.ty found.word v q t → post v q t) : (derefCode site v).Arrives m start q t post := by
  obtain ⟨ty, a, loads⟩ := f
  rw [derefCode, g.ty]
  cases ty with
  | pointer target =>
    cases he
    exact .seq (arrives_pointer g (access a (by simp [Found.load])) fun u given => .pure (h _ _ _ given))
  | array elem length => cases he
  | scalar sc => cases he
  | struct name => cases he

theorem arrives_fieldCode {name : String} {found : Found} {post : Value → RegPool → State → Prop}
    (g : Gives p s f.ty f.word v q t) (he : f.field? site name = some found)
    (h : ∀ v q t, Gives p s found.ty found.word v q t → post v q t) : (fieldCode site v name).Arrives m start q t post := by
  obtain ⟨ty, a, loads⟩ := f
  rw [fieldCode, g.ty]
  cases ty with
  | struct owner =>
    obtain ⟨field, hf, he⟩ := Option.bind_eq_some_iff.1 he
    cases he
    refine .seq (.ofExcept fun field' hf' => ?_)
    obtain rfl : field' = field := by
      rw [hf'] at hf
      exact Option.some.inj hf
    refine .ite (fun _ => .seq (arrives_offsetCode g.nonzero ?_ fun u memory only sum => .pure (h _ _ _ ?_)))
      fun zero => .seq (.pure (.pure (h _ _ _ ?_)))
    · exact RegPool.ne_of_mem_lent g.lent RegPool.k1_notMem_lent
    · refine g.change memory (only.mono (by simp [scratch])) ?_
      rw [sum, g.word, Word.ofInt_natCast]
    · have none : UInt32.ofNat field'.offset = 0 := by rw [not_not.1 zero]; rfl
      refine g.change rfl (Only.refl _ _) ?_
      rw [g.word]
      show a = a + UInt32.ofNat field'.offset
      rw [none]
      exact (UInt32.add_zero a).symm
  | array elem length => cases he
  | scalar sc => cases he
  | pointer target => cases he

theorem arrives_indexCode {first j found : Found} {i : Value} {q' : RegPool} {post : Value → RegPool → State → Prop}
    (hb : site.scope.types.Bounded) (hp : p.Sound) (g : Gives p s first.ty first.word v q t)
    (gi : Gives q t j.ty j.word i q' u) (he : first.element? site j = some found)
    (h : ∀ v q t, Gives p s found.ty found.word v q t → post v q t) :
    (indexCode site v.reg first.ty i).Arrives m start q' u post := by
  obtain ⟨size, hn, he⟩ := Option.bind_eq_some_iff.1 he
  cases he
  refine .ite (fun _ => .fail) fun _ => .seq (.ofExcept fun size' hn' => ?_)
  obtain rfl : size' = size := by
    rw [hn'] at hn
    exact Option.some.inj hn
  have small : size' < addressSpace := hb.sizeOf_lt hn'
  have used : q'.isUsed i.reg = true := by rw [gi.pool, RegPool.isUsed_setUsed, if_pos rfl]
  refine .seq (arrives_scaleCode small (gi.sound (g.sound hp)) gi.lent used fun x memory kept product => ?_)
  have base : x.reg v.reg = first.word := by
    have guarded : q'.Guards v.reg := gi.pool ▸ g.guards.setUsed i.reg
    rw [kept v.reg guarded (g.distinct gi.toTakes), g.kept gi]
  refine .seq (.instr rfl fun y memory' regs => .seq (.registers (.pure (h _ _ _ ?_))))
  refine g.release hp gi (memory'.trans memory) (fun r guarded ne ne' => ?_) ?_
  · rw [regs, setReg_of_ne ne, kept r guarded ne']
  · rw [regs, setReg_self g.nonzero, base, product, gi.word]; rfl

/-! ## Expressions and places -/

theorem arrives_binaryCode {op : BinaryOp} {l r : Value} {a b : Word} {ty' : Ty} {q' : RegPool}
    {post : Value → RegPool → State → Prop} (hp : p.Sound) (g : Gives p s ty a l q t) (gr : Gives q t ty' b r q' u)
    (h : ∀ v q t, Gives p s (op.resultTy ty) (op.word ty a b) v q t → post v q t) :
    (binaryCode site op l r).Arrives m start q' u post := by
  refine .seq (.ofExcept fun _ _ => .ite (fun _ => .fail) fun _ => .seq (arrives_applyCode g.nonzero ?_))
  rw [g.ty, g.kept gr, gr.word]
  intro x memory only result
  refine .seq (.registers (.pure (h _ _ _ (g.release hp gr memory (fun y guarded ne ne' => only y ?_) result))))
  rintro (_ | ⟨_, _ | ⟨_, hs⟩⟩)
  · exact ne rfl
  · exact ne' rfl
  · exact not_guards_scratch q' y hs guarded

mutual

/-- The code of an expression gives its value.  By induction on the expression: each part gives its value to code that still
    finds what there was at the start. -/
theorem arrives_exprCode (hb : site.scope.types.Bounded) : ∀ (e : Expr) {p : RegPool} {s : State} {f : Found}
    {post : Value → RegPool → State → Prop}, p.Sound → e.found site (.of s) = some f → (∀ a ∈ f.loads, CanAccess s a) →
    (∀ v q t, Gives p s f.ty f.word v q t → post v q t) → (exprCode site e).Arrives m start p s post
  | .number value isUnsigned, p, s, f, post, hp, hf, ha, h => by
    unfold Expr.found at hf
    unfold exprCode
    cases hf
    refine .seq (.ofExcept fun w hw => ?_)
    rw [numberWord] at hw
    by_cases fits : value < (if isUnsigned then 0x100000000 else 0x80000000)
    · rw [if_pos fits] at hw
      cases hw
      exact arrives_literalCode h
    · rw [if_neg fits] at hw
      cases hw
  | .bool value, p, s, f, post, hp, hf, ha, h => by
    unfold Expr.found at hf
    unfold exprCode
    cases hf
    exact arrives_literalCode h
  | .char value, p, s, f, post, hp, hf, ha, h => by
    unfold Expr.found at hf
    unfold exprCode
    cases hf
    exact arrives_literalCode h
  | .place place, p, s, f, post, hp, hf, ha, h => by
    unfold Expr.found at hf
    unfold exprCode
    obtain ⟨g, hg, hf⟩ := Option.bind_eq_some_iff.1 hf
    cases hf
    have before : ∀ a ∈ g.loads, CanAccess s a := fun a mem => ha a (List.mem_append_left _ mem)
    have last : CanAccess s g.word := ha g.word (List.mem_append_right _ List.mem_cons_self)
    exact .seq (arrives_placeCode hb place hp hg before fun v q t given => arrives_loadCode given last h)
  | .unary op operand, p, s, f, post, hp, hf, ha, h => by
    unfold Expr.found at hf
    unfold exprCode
    obtain ⟨g, hg, hf⟩ := Option.bind_eq_some_iff.1 hf
    cases hf
    refine .seq (arrives_exprCode hb operand hp hg ha fun v q t given => ?_)
    refine arrives_unaryCode given.nonzero fun u memory regs => h _ _ _ ?_
    rw [given.word] at regs
    have changed : Gives p s g.ty (op.word g.word) ⟨g.ty, v.reg⟩ q u := given.set memory regs
    rwa [← given.ty] at changed ⊢
  | .binary op left right, p, s, f, post, hp, hf, ha, h => by
    unfold Expr.found at hf
    unfold exprCode
    obtain ⟨l, hl, hf⟩ := Option.bind_eq_some_iff.1 hf
    obtain ⟨r, hr, hf⟩ := Option.bind_eq_some_iff.1 hf
    cases hf
    have first : ∀ a ∈ l.loads, CanAccess s a := fun a mem => ha a (List.mem_append_left _ mem)
    have second : ∀ a ∈ r.loads, CanAccess s a := fun a mem => ha a (List.mem_append_right _ mem)
    refine .seq (arrives_exprCode hb left hp hl first fun x q t given => ?_)
    -- the right operand is found as if the left one had not been computed
    rw [← given.keeps.view] at hr
    refine .seq (arrives_exprCode hb right (given.sound hp) hr (given.keeps.access second) fun y q' u given' => ?_)
    exact arrives_binaryCode hp given given' h

/-- The code of a place gives its address. -/
theorem arrives_placeCode (hb : site.scope.types.Bounded) : ∀ (place : Place) {p : RegPool} {s : State} {f : Found}
    {post : Value → RegPool → State → Prop}, p.Sound → place.found site (.of s) = some f → (∀ a ∈ f.loads, CanAccess s a) →
    (∀ v q t, Gives p s f.ty f.word v q t → post v q t) → (placeCode site place).Arrives m start p s post
  | .var name, p, s, f, post, hp, hf, ha, h => by
    unfold Place.found at hf
    unfold placeCode
    exact arrives_varCode hf h
  | .index base i, p, s, f, post, hp, hf, ha, h => by
    unfold Place.found at hf
    unfold placeCode
    obtain ⟨g, hg, hf⟩ := Option.bind_eq_some_iff.1 hf
    obtain ⟨first, hn, hf⟩ := Option.bind_eq_some_iff.1 hf
    obtain ⟨j, hj, hf⟩ := Option.bind_eq_some_iff.1 hf
    -- what is loaded for the base comes first, then the address of the elements if it is kept in a pointer, then the index
    have loads : f.loads = first.loads ++ j.loads := Found.loads_element? hf
    rw [loads] at ha
    have upTo : ∀ a ∈ first.loads, CanAccess s a := fun a mem => ha a (List.mem_append_left _ mem)
    have within : ∀ a ∈ g.loads, CanAccess s a := fun a mem => upTo a (Found.loads_elements? hn mem)
    have inIndex : ∀ a ∈ j.loads, CanAccess s a := fun a mem => ha a (List.mem_append_right _ mem)
    refine .seq (arrives_placeCode hb base hp hg within fun v q t given => ?_)
    refine .seq (arrives_elementsCode given hn upTo fun u given => ?_)
    rw [← given.keeps.view] at hj
    refine .seq (arrives_exprCode hb i (given.sound hp) hj (given.keeps.access inIndex) fun r q' x given' => ?_)
    exact arrives_indexCode (v := ⟨first.ty, v.reg⟩) hb hp given given' hf h
  | .field base name, p, s, f, post, hp, hf, ha, h => by
    unfold Place.found at hf
    unfold placeCode
    obtain ⟨g, hg, hf⟩ := Option.bind_eq_some_iff.1 hf
    rw [Found.loads_field? hf] at ha
    exact .seq (arrives_placeCode hb base hp hg ha fun v q t given => arrives_fieldCode given hf h)
  | .deref base, p, s, f, post, hp, hf, ha, h => by
    unfold Place.found at hf
    unfold placeCode
    obtain ⟨g, hg, hf⟩ := Option.bind_eq_some_iff.1 hf
    have before : ∀ a ∈ g.loads, CanAccess s a := fun a mem => ha a (Found.loads_target? hf mem)
    exact .seq (arrives_placeCode hb base hp hg before fun v q t given => arrives_derefCode given hf ha h)

end

end M32.Lang
