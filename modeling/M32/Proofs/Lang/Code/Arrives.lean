/-
  Where generated code arrives.

  1. `instrsOf` are the instructions of some lines, for labels that stand at some indices.  A `Linked` image is an image with
     such indices.
  2. `Emit.Yields` is for the values that a piece of code has, `Emit.Ends` for these and the registers in use after it.
  3. `Emit.Arrives` is the weakest precondition of a piece of code that computes: started where its instructions lie, the
     machine comes to the instruction after them with some value, registers in use and state, and memory as it was.
  4. Pieces in a row have a lemma (`Arrives.seq`), and so has each of the pieces that `Emit` is built from.
-/
import M32.Proofs.Lang.Code.Pieces
import M32.Proofs.Lang.Code.Registers
import M32.Proofs.Lang.Code.Written

namespace M32.Lang

open Machine

/-! ## Lines as instructions -/

/-- The instructions of a line. -/
def Line.instrs (index : String → Nat) : Line → List Instr
  | label _ => []
  | instr i => [i]
  | pseudo p => p.instrs
  | jump mnemonic target => [.jump (links mnemonic) (UInt32.ofNat (index target))]

/-- The instructions of some lines. -/
def instrsOf (index : String → Nat) (code : List Line) : List Instr := code.flatMap (Line.instrs index)

variable {index : String → Nat}

theorem Line.length_instrs (index : String → Nat) (l : Line) : (l.instrs index).length = l.size := by
  cases l with
  | pseudo p => exact p.length_instrs
  | _ => rfl

theorem instrsOf_append (a b : List Line) : instrsOf index (a ++ b) = instrsOf index a ++ instrsOf index b :=
  List.flatMap_append

theorem instrsOf_cons (l : Line) (code : List Line) : instrsOf index (l :: code) = l.instrs index ++ instrsOf index code := rfl

theorem instrsOf_instrs (is : List Instr) : instrsOf index (is.map .instr) = is := by
  rw [instrsOf, List.flatMap_map]
  exact List.flatMap_singleton' is

theorem length_instrsOf (index : String → Nat) (code : List Line) : (instrsOf index code).length = codeSize code := by
  induction code with
  | nil => rfl
  | cons l code ih => rw [instrsOf_cons, List.length_append, Line.length_instrs, ih, codeSize_cons]

/-- An image, and where its labels stand. -/
structure Linked where
  image : List Instr
  index : String → Nat

/-- Whether the instructions of some lines stand in an image from instruction `k`. -/
def Linked.Has (m : Linked) (k : Nat) (code : List Line) : Prop := Lies m.image k (instrsOf m.index code)

namespace Linked.Has

variable {m : Linked} {k : Nat} {a b : List Line} {l : Line}

theorem append (h : m.Has k (a ++ b)) : m.Has k a ∧ m.Has (k + codeSize a) b := by
  rw [Has, instrsOf_append] at h
  rw [← length_instrsOf m.index]
  exact h.append

theorem cons (h : m.Has k (l :: a)) : Lies m.image k (l.instrs m.index) ∧ m.Has (k + l.size) a := by
  rw [Has, instrsOf_cons] at h
  rw [← l.length_instrs m.index]
  exact h.append

/-- An instruction of the image where some lines stand is one of theirs. -/
theorem known {j : Nat} {i : Instr} (h : m.Has k a) (after : k ≤ j) (before : j < k + codeSize a) (hi : m.image[j]? = some i) :
    (instrsOf m.index a)[j - k]? = some i := by
  have inside : j - k < (instrsOf m.index a).length := by rw [length_instrsOf]; omega
  have same := Lies.get h (List.getElem?_eq_getElem inside)
  rw [Nat.add_sub_cancel' after, hi] at same
  rw [List.getElem?_eq_getElem inside, same]

end Linked.Has

/-! ## Pieces of code -/

namespace Emit

variable {α β : Type} {m : Linked} {base : Nat} {p : RegPool} {s : State}

/-- Whether all values and registers in use that a piece of code comes to are good. -/
def Ends (x : Emit α) (p : RegPool) (post : α → RegPool → Prop) : Prop := ∀ r, x p = .ok r → post r.value r.pool

namespace Ends

variable {post : α → RegPool → Prop}

theorem mono {x : Emit α} {first : α → RegPool → Prop} (h : x.Ends p first) (hp : ∀ a q, first a q → post a q) : x.Ends p post :=
  fun r hr => hp _ _ (h r hr)

theorem pure {a : α} (h : post a p) : (Pure.pure a : Emit α).Ends p post := by
  intro r hr
  cases (pure_eq_ok_iff a r).1 hr
  exact h

theorem fail {fault : Fault} : (Emit.fail fault : Emit α).Ends p post := fun r hr => absurd hr (fail_ne_ok fault r)

theorem seq {x : Emit β} {f : β → Emit α} (hx : x.Ends p fun b q => (f b).Ends q post) : (x >>= f).Ends p post := by
  intro r hr
  obtain ⟨a, b, ha, hb, rfl⟩ := (bind_eq_ok_iff x f p r).1 hr
  exact hx a ha b hb

theorem ofExcept {e : Except Fault α} (h : ∀ a, e = .ok a → post a p) : (Emit.ofExcept e).Ends p post := by
  intro r hr
  obtain ⟨a, ha, rfl⟩ := (ofExcept_eq_ok_iff e r).1 hr
  exact h a ha

theorem ite {c : Prop} [Decidable c] {x y : Emit α} (hx : c → x.Ends p post) (hy : ¬ c → y.Ends p post) :
    (if c then x else y).Ends p post := by
  split
  · next h => exact hx h
  · next h => exact hy h

theorem lines {code : List Line} {post : Unit → RegPool → Prop} (h : post () p) : (Emit.lines code).Ends p post := by
  intro r hr
  cases (lines_eq_ok_iff _ _).1 hr
  exact h

theorem instr {i : Instr} {post : Unit → RegPool → Prop} (h : post () p) : (Emit.instr i).Ends p post := lines h

theorem pseudo {ps : Pseudo} {post : Unit → RegPool → Prop} (h : post () p) : (Emit.pseudo ps).Ends p post := by
  intro r hr
  obtain ⟨-, rfl⟩ := (pseudo_eq_ok_iff _ _).1 hr
  exact h

theorem acquire {fragment : String} {post : Reg → RegPool → Prop} (h : ∀ r q, p.Takes r q → post r q) :
    (Emit.acquire fragment).Ends p post := by
  intro r hr
  obtain ⟨reg, q, hq, rfl⟩ := (acquire_eq_ok_iff fragment r).1 hr
  exact h reg q (.of_acquire? hq)

theorem registers {change : RegPool → RegPool} {post : Unit → RegPool → Prop} (h : post () (change p)) :
    (Emit.registers change).Ends p post := by
  intro r hr
  cases (registers_eq_ok_iff change r).1 hr
  exact h

end Ends

/-- Whether all values that a piece of code has are good. -/
def Yields (x : Emit α) (good : α → Prop) : Prop := ∀ p r, x p = .ok r → good r.value

namespace Yields

variable {good : α → Prop}

theorem pure {a : α} (h : good a) : (Pure.pure a : Emit α).Yields good := fun p r hr => by
  cases (pure_eq_ok_iff a r).1 hr
  exact h

theorem fail {fault : Fault} : (Emit.fail fault : Emit α).Yields good := fun _ r hr => absurd hr (fail_ne_ok fault r)

theorem bind {x : Emit β} {f : β → Emit α} (h : ∀ b, (f b).Yields good) : (x >>= f).Yields good := by
  intro p r hr
  obtain ⟨a, b, -, hb, rfl⟩ := (bind_eq_ok_iff x f p r).1 hr
  exact h a.value a.pool b hb

theorem bind_ofExcept {e : Except Fault β} {f : β → Emit α} (h : ∀ b, e = .ok b → (f b).Yields good) :
    (Emit.ofExcept e >>= f).Yields good := by
  intro p r hr
  obtain ⟨a, b, ha, hb, rfl⟩ := (bind_eq_ok_iff (Emit.ofExcept e) f p r).1 hr
  obtain ⟨v, hv, rfl⟩ := (ofExcept_eq_ok_iff e a).1 ha
  exact h v hv _ b hb

end Yields

/-- Whether a piece of code leads to its end with some value, registers in use and state, and leaves memory as it was. -/
def Arrives (m : Linked) (base : Nat) (x : Emit α) (p : RegPool) (s : State) (post : α → RegPool → State → Prop) : Prop :=
  ∀ r k, x p = .ok r → Inside m.image base k s → m.Has k r.code →
    ∃ t, Works m.image base s (k + codeSize r.code) t ∧ post r.value r.pool t

namespace Arrives

/-- What holds of every state that is about to carry out an instruction may be used. -/
theorem of_zero {x : Emit α} {post : α → RegPool → State → Prop} (h : s.reg .zero = 0 → x.Arrives m base p s post) :
    x.Arrives m base p s post := fun r k hr hk hc => h hk.zero r k hr hk hc

/-- Pieces in a row: the first leads to where the second leads to the end. -/
theorem seq {x : Emit α} {f : α → Emit β} {post : β → RegPool → State → Prop}
    (hx : x.Arrives m base p s fun a q t => (f a).Arrives m base q t post) : (x >>= f).Arrives m base p s post := by
  intro r k hr hk hc
  obtain ⟨a, b, ha, hb, rfl⟩ := (bind_eq_ok_iff x f p r).1 hr
  obtain ⟨first, second⟩ := hc.append
  obtain ⟨t, ht, rest⟩ := hx a k ha hk first
  obtain ⟨u, hu, holds⟩ := rest b _ hb ht.inside second
  refine ⟨u, ?_, holds⟩
  rw [codeSize_append, ← Nat.add_assoc]
  exact ht.trans hu

/-! ### Pieces without instructions -/

/-- The machine stays where it is, if there is no code. -/
theorem of_no_code {x : Emit α} {post : α → RegPool → State → Prop} (h : ∀ r, x p = .ok r → r.code = [] ∧ post r.value r.pool s) :
    x.Arrives m base p s post := by
  intro r k hr hk _
  obtain ⟨empty, holds⟩ := h r hr
  exact ⟨s, by rw [empty]; exact .refl hk, holds⟩

theorem pure {a : α} {post : α → RegPool → State → Prop} (h : post a p s) : (Pure.pure a : Emit α).Arrives m base p s post :=
  of_no_code fun r hr => by
    cases (pure_eq_ok_iff a r).1 hr
    exact ⟨rfl, h⟩

theorem ofExcept {e : Except Fault α} {post : α → RegPool → State → Prop} (h : ∀ a, e = .ok a → post a p s) :
    (ofExcept e).Arrives m base p s post :=
  of_no_code fun r hr => by
    obtain ⟨a, ha, rfl⟩ := (ofExcept_eq_ok_iff e r).1 hr
    exact ⟨rfl, h a ha⟩

theorem fail {fault : Fault} {post : α → RegPool → State → Prop} : (Emit.fail fault : Emit α).Arrives m base p s post :=
  of_no_code fun r hr => absurd hr (fail_ne_ok fault r)

theorem ite {c : Prop} [Decidable c] {x y : Emit α} {post : α → RegPool → State → Prop} (hx : c → x.Arrives m base p s post)
    (hy : ¬ c → y.Arrives m base p s post) : (if c then x else y).Arrives m base p s post := by
  split
  · next h => exact hx h
  · next h => exact hy h

theorem acquire {fragment : String} {post : Reg → RegPool → State → Prop} (h : ∀ r q, p.Takes r q → post r q s) :
    (acquire fragment).Arrives m base p s post :=
  of_no_code fun r hr => by
    have taken : post r.value r.pool s := Ends.acquire h r hr
    obtain ⟨reg, q, -, rfl⟩ := (acquire_eq_ok_iff fragment r).1 hr
    exact ⟨rfl, taken⟩

theorem registers {change : RegPool → RegPool} {post : Unit → RegPool → State → Prop} (h : post () (change p) s) :
    (registers change).Arrives m base p s post :=
  of_no_code fun r hr => by
    cases (registers_eq_ok_iff change r).1 hr
    exact ⟨rfl, h⟩

/-! ### Pieces with instructions -/

variable {post : Unit → RegPool → State → Prop}

/-- Instructions with a run through them. -/
theorem instrs (is : List Instr) {regs : Reg → Word}
    (hc : ∀ k, Inside m.image base k s → Lies m.image k is → ∃ t, Works m.image base s (k + is.length) t ∧ t.reg = regs)
    (h : ∀ t : State, t.memory = s.memory → t.reg = regs → post () p t) :
    (lines (is.map .instr)).Arrives m base p s post := by
  intro r k hx hk hl
  cases (lines_eq_ok_iff _ _).1 hx
  have length := length_instrsOf m.index (is.map Line.instr)
  rw [Linked.Has, instrsOf_instrs] at hl
  rw [instrsOf_instrs] at length
  obtain ⟨t, ht, regs_t⟩ := hc k hk hl
  exact ⟨t, length ▸ ht, h t ht.memory regs_t⟩

/-- Instructions in a row that compute. -/
theorem straight (is : List Instr) {regs : Reg → Word} (hr : computedAll? is s.reg = some regs)
    (h : ∀ t : State, t.memory = s.memory → t.reg = regs → post () p t) :
    (lines (is.map .instr)).Arrives m base p s post :=
  instrs is (fun _ hk hl => works_straight hk hl hr) h

theorem instr {i : Instr} {regs : Reg → Word} (hr : computed? i s.reg = some regs)
    (h : ∀ t : State, t.memory = s.memory → t.reg = regs → post () p t) : (instr i).Arrives m base p s post :=
  straight [i] (by rw [computedAll?, hr]; rfl) h

theorem load {rt source : Reg} {offset : Int16} (ha : CanAccess s (s.reg source + Word.ofImm offset))
    (h : ∀ t : State, t.memory = s.memory →
      t.reg = setReg s.reg rt (s.memory.read (s.reg source + Word.ofImm offset)) → post () p t) :
    (Emit.instr (.lw rt source offset)).Arrives m base p s post :=
  instrs [.lw rt source offset] (fun _ hk hl => works_load hk hl.head ha) h

/-- A pseudo-instruction that computes. -/
theorem pseudo {ps : Pseudo} {result : State → Prop}
    (hc : ∀ k, Inside m.image base k s → Lies m.image k ps.instrs → ps.fault? = none →
      ∃ t, Works m.image base s (k + ps.size) t ∧ result t)
    (h : ∀ t : State, t.memory = s.memory → result t → post () p t) : (pseudo ps).Arrives m base p s post := by
  intro r k hx hk hl
  obtain ⟨permitted, rfl⟩ := (pseudo_eq_ok_iff _ _).1 hx
  obtain ⟨t, ht, holds⟩ := hc k hk hl.cons.1 permitted
  exact ⟨t, ht, h t ht.memory holds⟩

theorem gpr {reg : Reg} {w : Word} {ty : Scalar}
    (h : ∀ t : State, t.memory = s.memory → t.reg = setReg s.reg reg w → post () p t) :
    (Emit.pseudo (.gpr reg w ty)).Arrives m base p s post :=
  pseudo (fun _ hk hl _ => works_gpr hk hl) h

end Arrives

end Emit

end M32.Lang
