/-
  Registers that code leaves alone.

  1. A sound pool has all retained registers in use, and operations make no other (`Made.sound`).  A register that was acquired
     is none of the named ones, and giving it back restores the pool (`release_acquired`).  `Takes` is for code that leaves one
     register more in use.
  2. Code that starts with some registers in use leaves these alone, and the named registers but `k0` to `k3`
     (`RegPool.Guards`).  `Keeps` says that a run did so and left memory as it was.
-/
import M32.Proofs.Pseudo.Product
import M32.Lang.Code.Registers

namespace M32.Lang

open Machine

/-! ## Pools -/

namespace RegPool

variable {p : RegPool} {r q : Reg}

theorem mem_lent_iff : r ∈ lent ↔ 1 ≤ r.num.val ∧ r.num.val ≤ 23 := by
  have known : r ∈ Reg.all := List.mem_map.2 ⟨r.num, List.mem_finRange _, rfl⟩
  rw [lent, List.mem_filter, Bool.and_eq_true, decide_eq_true_iff, decide_eq_true_iff]
  exact ⟨fun h => h.2, fun h => ⟨known, h⟩⟩

theorem isScratch_of_mem_lent (h : r ∈ lent) : r.isScratch = false := by
  obtain ⟨-, high⟩ := mem_lent_iff.1 h
  rw [Reg.isScratch, Bool.and_eq_false_iff, decide_eq_false_iff_not]
  exact .inl (by omega)

/-- A register that is handed out is none of the named ones. -/
theorem ne_of_mem_lent (h : r ∈ lent) (hq : q ∉ lent) : r ≠ q := fun he => hq (he ▸ h)

theorem zero_notMem_lent : Reg.zero ∉ lent := by decide
theorem k0_notMem_lent : Reg.k0 ∉ lent := by decide
theorem k1_notMem_lent : Reg.k1 ∉ lent := by decide
theorem sp_notMem_lent : Reg.sp ∉ lent := by decide

/-- Whether all retained registers are in use. -/
def Sound (p : RegPool) : Prop := ∀ r, p.isRetained r = true → p.isUsed r = true

theorem Sound.setUsed (h : p.Sound) (r : Reg) : (p.setUsed r true).Sound := by
  intro q hq
  rw [isUsed_setUsed]
  split
  · rfl
  · exact h q hq

theorem sound_empty : ({} : RegPool).Sound := by
  intro r hr
  simp [isRetained, Vector.get] at hr

theorem sound_endStatement (p : RegPool) : p.endStatement.Sound := fun _ hr => hr

theorem Sound.retain (h : p.Sound) (r : Reg) : (p.retain r).Sound := by
  intro q hq
  rw [RegPool.retain, isRetained_setRetained] at hq
  rw [RegPool.retain, isUsed_setRetained, isUsed_setUsed]
  split
  · rfl
  · next ne =>
    rw [if_neg ne] at hq
    exact h q hq

theorem Sound.unretain (h : p.Sound) (r : Reg) : (p.unretain r).Sound := by
  intro q hq
  rw [RegPool.unretain, isRetained_setRetained] at hq
  rw [RegPool.unretain, isUsed_setRetained, isUsed_setUsed]
  split at hq
  · cases hq
  · next ne =>
    rw [if_neg ne]
    exact h q hq

/-- Pools that operations make, from one with all registers unused. -/
inductive Made : RegPool → Prop where
  | empty : Made {}
  | acquire {p q : RegPool} {r : Reg} (h : Made p) (hq : p.acquire? = some (r, q)) : Made q
  | release {p : RegPool} (h : Made p) (r : Reg) : Made (p.release r)
  | occupy {p : RegPool} (h : Made p) (r : Reg) : Made (p.occupy r).2
  | retain {p : RegPool} (h : Made p) (r : Reg) : Made (p.retain r)
  | unretain {p : RegPool} (h : Made p) (r : Reg) : Made (p.unretain r)
  | endStatement {p : RegPool} (h : Made p) : Made p.endStatement

theorem Sound.release (h : p.Sound) (r : Reg) : (p.release r).Sound := by
  unfold RegPool.release
  split
  · exact h
  · next free =>
    intro q hq
    rw [isRetained_setUsed] at hq
    rw [isUsed_setUsed]
    split
    · next same =>
      subst same
      exact absurd hq free
    · exact h q hq

theorem Made.sound (h : p.Made) : p.Sound := by
  induction h with
  | empty => exact sound_empty
  | acquire _ hq ih =>
    obtain ⟨r, -, he⟩ := Option.map_eq_some_iff.1 hq
    cases he
    exact ih.setUsed _
  | release _ r ih => exact ih.release r
  | occupy _ r ih => exact ih.setUsed r
  | retain _ r ih => exact ih.retain r
  | unretain _ r ih => exact ih.unretain r
  | endStatement _ _ => exact sound_endStatement _

/-- Pools in which some registers are retained besides. -/
def retaining (p : RegPool) (rs : List Reg) : RegPool := rs.foldl RegPool.retain p

theorem Made.retaining (h : p.Made) (rs : List Reg) : (p.retaining rs).Made := by
  induction rs generalizing p with
  | nil => exact h
  | cons r rs ih => exact ih (h.retain r)

/-- The pool in which only the first registers that are handed out are in use, and retained. -/
def nested (depth : Nat) : RegPool := retaining {} (lent.take depth)

theorem made_nested (depth : Nat) : (nested depth).Made := .retaining .empty _

/-- A register that is not in use is not retained. -/
theorem Sound.not_retained (h : p.Sound) (unused : p.isUsed r = false) : p.isRetained r = false := by
  rw [Bool.eq_false_iff]
  intro retained
  have used := h r retained
  rw [unused] at used
  cases used

/-- What a register is set back to restores the table. -/
theorem set_back {v : Vector Bool 32} {a b : Bool} (h : v.get r.num = b) :
    (v.set r.num.val a r.num_lt).set r.num.val b r.num_lt = v := by
  apply Vector.ext
  intro i hi
  rw [Vector.getElem_set, Vector.getElem_set]
  by_cases here : r.num.val = i
  · subst here
    rw [if_pos rfl]
    exact h.symm
  · rw [if_neg here, if_neg here]

/-- Giving an acquired register back restores the pool. -/
theorem release_acquired (h : p.Sound) (unused : p.isUsed r = false) : (p.setUsed r true).release r = p := by
  rw [release, isRetained_setUsed, h.not_retained unused, if_neg Bool.false_ne_true]
  show { p with used := (p.used.set r.num.val true r.num_lt).set r.num.val false r.num_lt } = p
  rw [set_back unused]

/-! ### Guarded registers -/

/-- Whether code that starts with some registers in use leaves a register as it is. -/
def Guards (p : RegPool) (r : Reg) : Prop := r.isScratch = false ∧ (r ∈ lent → p.isUsed r = true)

theorem guards_of_notMem (p : RegPool) (plain : r.isScratch = false) (h : r ∉ lent) : p.Guards r := ⟨plain, fun hr => absurd hr h⟩

theorem guards_zero (p : RegPool) : p.Guards .zero := guards_of_notMem p (by decide) (by decide)
theorem guards_bp (p : RegPool) : p.Guards .bp := guards_of_notMem p (by decide) (by decide)
theorem guards_sp (p : RegPool) : p.Guards .sp := guards_of_notMem p (by decide) (by decide)
theorem guards_hp (p : RegPool) : p.Guards .hp := guards_of_notMem p (by decide) (by decide)

theorem guards_setUsed (p : RegPool) (h : r ∈ lent) : (p.setUsed r true).Guards r :=
  ⟨isScratch_of_mem_lent h, fun _ => by rw [isUsed_setUsed, if_pos rfl]⟩

theorem Guards.setUsed (h : p.Guards q) (r : Reg) : (p.setUsed r true).Guards q := by
  refine ⟨h.1, fun hq => ?_⟩
  rw [isUsed_setUsed]
  split
  · rfl
  · exact h.2 hq

theorem not_guards_of_unused (hr : r ∈ lent) (unused : p.isUsed r = false) : ¬ p.Guards r := fun h => by
  have used := h.2 hr
  rw [unused] at used
  cases used

/-- Whether a register was free and is the only one that is in use besides. -/
structure Takes (p : RegPool) (r : Reg) (q : RegPool) : Prop where
  lent : r ∈ RegPool.lent
  unused : p.isUsed r = false
  pool : q = p.setUsed r true

namespace Takes

variable {q' : RegPool} {r' : Reg}

theorem of_acquire? {q : RegPool} (h : p.acquire? = some (r, q)) : p.Takes r q := by
  obtain ⟨_, found, same⟩ := Option.map_eq_some_iff.1 h
  cases same
  exact ⟨List.mem_of_find?_eq_some found, by simpa using List.find?_some found, rfl⟩

theorem nonzero {q : RegPool} (h : p.Takes r q) : r ≠ .zero := ne_of_mem_lent h.lent zero_notMem_lent

theorem sound {q : RegPool} (h : p.Takes r q) (hp : p.Sound) : q.Sound := h.pool ▸ hp.setUsed r

theorem guards {q : RegPool} (h : p.Takes r q) : q.Guards r := h.pool ▸ p.guards_setUsed h.lent

theorem not_guards {q : RegPool} (h : p.Takes r q) : ¬ p.Guards r := not_guards_of_unused h.lent h.unused

theorem distinct {q : RegPool} (h : p.Takes r q) (g : q.Takes r' q') : r ≠ r' := fun he => g.not_guards (he ▸ h.guards)

/-- A second register in between is given back. -/
theorem release {q : RegPool} (h : p.Takes r q) (hp : p.Sound) (g : q.Takes r' q') : p.Takes r (q'.release r') where
  lent := h.lent
  unused := h.unused
  pool := by rw [g.pool, release_acquired (h.sound hp) g.unused, h.pool]

end Takes

theorem not_guards_k0 (p : RegPool) : ¬ p.Guards .k0 := fun h => by cases h.1
theorem not_guards_k1 (p : RegPool) : ¬ p.Guards .k1 := fun h => by cases h.1

end RegPool

/-! ## Runs that keep registers -/

/-- Whether memory and all guarded registers are as they were. -/
structure Keeps (p : RegPool) (s t : State) : Prop where
  memory : t.memory = s.memory
  regs : ∀ r, p.Guards r → t.reg r = s.reg r

namespace Keeps

variable {p : RegPool} {r : Reg} {s t u : State}

theorem refl (p : RegPool) (s : State) : Keeps p s s := ⟨rfl, fun _ _ => rfl⟩

theorem trans (h : Keeps p s t) (g : Keeps p t u) : Keeps p s u :=
  ⟨g.memory.trans h.memory, fun r hr => (g.regs r hr).trans (h.regs r hr)⟩

/-- Code that starts with more registers in use leaves more alone. -/
theorem of_setUsed (h : Keeps (p.setUsed r true) s t) : Keeps p s t := ⟨h.memory, fun q hq => h.regs q (hq.setUsed r)⟩

theorem of_only (changed : List Reg) (memory : t.memory = s.memory) (h : Only changed s.reg t.reg)
    (free : ∀ r ∈ changed, ¬ p.Guards r) : Keeps p s t :=
  ⟨memory, fun r hr => h r fun hc => free r hc hr⟩

end Keeps

end M32.Lang
