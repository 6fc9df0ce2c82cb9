/-
  Code that computes, wherever it is placed.

  1. `Inside code base k s` says that `code` stands in the image from instruction `base` on and that its instruction `k` comes
     next.  Nothing is asked of the rest of the image.  Branches are relative, so what such code does is the same for every
     base (`branchTarget_eq`).
  2. `Works code base s k t` is a run to instruction `k` that leaves memory and the special registers as they were, and all
     registers that the code does not set (`Sets`).  `works_straight` is for instructions in a row that set registers,
     `works_branch` for branches, `works_load` for loads; the registers of the state that is reached are given as a function.
     A step that stores is not part of such a run (`Inside.step_store`).
  3. An image is code that is placed at its own start, so the same holds of a machine that holds an image (`At.inside`,
     `computes_of_works`).
  4. Legal code can be placed anywhere (`exists_inside`, `exists_at_end`).
-/
import M32.Proofs.Machine.Straight

namespace M32.Machine

/-! ## Places in code -/

/-- Whether instruction `k` of some code comes next.  The code stands in the image from instruction `base` on. -/
structure Inside (code : List Instr) (base k : Nat) (s : State) : Prop extends Stands code base s where
  pc : s.pc = addressOf (base + k)
  zero : s.reg .zero = 0

/-- Whether some instruction of the code sets a register. -/
def Sets (code : List Instr) (r : Reg) : Prop := ∃ i ∈ code, ∃ s, destination? s i = some (.reg r)

/-- A run to instruction `k` of some code that leaves memory as it was. -/
structure Works (code : List Instr) (base : Nat) (s : State) (k : Nat) (t : State) : Prop where
  runs : ∃ n, Runs n s t
  inside : Inside code base k t
  imageEnd : t.imageEnd = s.imageEnd
  memory : t.memory = s.memory
  sregs : t.sregs = s.sregs
  kept : ∀ r, ¬ Sets code r → t.reg r = s.reg r

section

variable {code : List Instr} {base k l : Nat} {i : Instr} {s t u : State}

/-- The instruction that comes next is carried out. -/
theorem Inside.step_eq (h : Inside code base k s) (hi : code[k]? = some i) : s.step = match s.advance.exec s.pc i with
    | (t, .ok halt) => (t, .ok ⟨s.pc, some i, halt⟩)
    | (t, .error trap) => (t, .error trap) := by
  have lt : k < code.length := (List.getElem?_eq_some_iff.1 hi).1
  have inside := h.inside
  have fits := h.fits
  exact step_of_fetch h.pc (by omega) (by omega) (h.fetch k i hi)

/-- What holds after an instruction that leaves memory as it was. -/
theorem Inside.of_rest (h : Inside code base k s) (memory : t.memory = s.memory) (imageEnd : t.imageEnd = s.imageEnd)
    (pc : t.pc = addressOf (base + l)) (zero : t.reg .zero = 0) : Inside code base l t where
  toStands := h.toStands.of_same (.of_memory imageEnd memory)
  pc := pc
  zero := zero

namespace Works

theorem refl (h : Inside code base k s) : Works code base s k s := ⟨⟨0, .refl s⟩, h, rfl, rfl, rfl, fun _ _ => rfl⟩

theorem trans (h : Works code base s k t) (g : Works code base t l u) : Works code base s l u where
  runs := by
    obtain ⟨m, first⟩ := h.runs
    obtain ⟨n, second⟩ := g.runs
    exact ⟨m + n, first.trans second⟩
  inside := g.inside
  imageEnd := g.imageEnd.trans h.imageEnd
  memory := g.memory.trans h.memory
  sregs := g.sregs.trans h.sregs
  kept r free := (g.kept r free).trans (h.kept r free)

end Works

/-! ## Computing -/

/-- Setting a register and going on leads to the next instruction. -/
theorem Inside.after_set (h : Inside code base k s) (r : Reg) (w : Word) : Inside code base (k + 1) (s.advance.setReg r w) := by
  refine h.of_rest (State.memory_setReg _ _ _) (State.imageEnd_setReg _ _ _) ?_ ?_
  · rw [State.pc_setReg, ← Nat.add_assoc, ← addressOf_succ, ← h.pc]; rfl
  · rw [State.reg_setReg]
    exact setReg_zero h.zero r w

/-- A step that sets the register that its instruction names. -/
theorem works_of_set {r : Reg} {w : Word} (h : Inside code base k s) (hi : code[k]? = some i)
    (names : destination? s i = some (.reg r)) (goes : Goes s (s.advance.setReg r w)) :
    ∃ t, Works code base s (k + 1) t ∧ t.reg = setReg s.reg r w := by
  have imageEnd : (s.advance.setReg r w).imageEnd = s.imageEnd := State.imageEnd_setReg _ _ _
  have memory : (s.advance.setReg r w).memory = s.memory := State.memory_setReg _ _ _
  have sets : Sets code r := ⟨i, List.mem_of_getElem? hi, s, names⟩
  refine ⟨s.advance.setReg r w, ⟨⟨1, goes.runs⟩, h.after_set r w, imageEnd, memory, ?_, ?_⟩, ?_⟩
  · exact State.sregs_setReg _ _ _
  · intro q free
    have other : q ≠ r := fun same => free (same ▸ sets)
    rw [State.reg_setReg, setReg_of_ne other]
    rfl
  · exact State.reg_setReg _ _ _

/-- Going on elsewhere leads there. -/
theorem Inside.after_jump (h : Inside code base k s) (l : Nat) : Inside code base l (s.advance.jumpTo (addressOf (base + l))) :=
  h.of_rest (t := s.advance.jumpTo (addressOf (base + l))) rfl rfl rfl h.zero

/-- A step that only goes on elsewhere. -/
theorem works_of_jump (h : Inside code base k s) (goes : Goes s (s.advance.jumpTo (addressOf (base + l)))) :
    ∃ t, Works code base s l t ∧ t.reg = s.reg :=
  ⟨_, ⟨⟨1, goes.runs⟩, h.after_jump l, rfl, rfl, rfl, fun _ _ => rfl⟩, rfl⟩

/-- An instruction that computes sets the register that it names. -/
theorem Inside.step_computed (h : Inside code base k s) (hi : code[k]? = some i) {regs : Reg → Word}
    (hr : computed? i s.reg = some regs) :
    ∃ r w, destination? s i = some (.reg r) ∧ s.step = (s.advance.setReg r w, .ok ⟨s.pc, some i, none⟩) ∧
      setReg s.reg r w = regs := by
  have set (r : Reg) (w : Word) (names : destination? s i = some (.reg r))
      (he : s.advance.exec s.pc i = (s.advance.setReg r w, .ok none)) (hw : some (setReg s.reg r w) = some regs) :
      ∃ r w, destination? s i = some (.reg r) ∧ s.step = (s.advance.setReg r w, .ok ⟨s.pc, some i, none⟩) ∧
        setReg s.reg r w = regs := ⟨r, w, names, by rw [h.step_eq hi, he], Option.some.inj hw⟩
  cases i with
  | shift op rd rt amount => exact set _ _ rfl rfl hr
  | shiftBy op rd rt rs => exact set _ _ rfl rfl hr
  | arith op rd rs rt => exact set _ _ rfl rfl hr
  | signed op rt rs imm => exact set _ _ rfl rfl hr
  | bits op rt rs imm => exact set _ _ rfl rfl hr
  | lui rt imm => exact set _ _ rfl rfl hr
  | _ => cases hr

/-- An instruction that computes. -/
theorem works_one (h : Inside code base k s) (hi : code[k]? = some i) {regs : Reg → Word} (hr : computed? i s.reg = some regs) :
    ∃ t, Works code base s (k + 1) t ∧ t.reg = regs := by
  obtain ⟨r, w, names, step, rfl⟩ := h.step_computed hi hr
  exact works_of_set h hi names ⟨s.pc, i, step⟩

/-- Instructions in a row that compute. -/
theorem works_straight {c : List Instr} (h : Inside code base k s) (hc : Lies code k c) {regs : Reg → Word}
    (hr : computedAll? c s.reg = some regs) : ∃ t, Works code base s (k + c.length) t ∧ t.reg = regs := by
  induction c generalizing k s with
  | nil => exact ⟨s, .refl h, Option.some.inj hr⟩
  | cons i c ih =>
    obtain ⟨between, first, rest⟩ := Option.bind_eq_some_iff.1 hr
    obtain ⟨t, ht, regs_t⟩ := works_one h hc.head first
    obtain ⟨u, hu, regs_u⟩ := ih ht.inside hc.tail (by rw [regs_t]; exact rest)
    rw [Nat.add_right_comm] at hu
    exact ⟨u, ht.trans hu, regs_u⟩

/-- A branch goes on elsewhere if its test holds, and otherwise with the next instruction. -/
theorem Inside.step_branch {test : PairTest} {a b : Reg} {offset : Int16} (h : Inside code base k s)
    (hi : code[k]? = some (.branch test a b offset))
    (hl : if test.holds (s.reg a) (s.reg b) then (l : Int) = k + offset.toInt else l = k + 1) :
    s.step = (s.advance.jumpTo (addressOf (base + l)), .ok ⟨s.pc, some (.branch test a b offset), none⟩) := by
  by_cases holds : test.holds (s.reg a) (s.reg b) = true
  · rw [if_pos holds] at hl
    have target : ((base + l : Nat) : Int) = (base + k : Nat) + offset.toInt := by omega
    rw [h.step_eq hi, State.exec, State.reg_advance, if_pos holds, h.pc, branchTarget_eq target]
  · rw [if_neg holds] at hl
    subst hl
    rw [h.step_eq hi, State.exec, State.reg_advance, if_neg holds, ← Nat.add_assoc, ← addressOf_succ, ← h.pc]; rfl

/-- A branch, taken if its test holds. -/
theorem works_branch {test : PairTest} {a b : Reg} {offset : Int16} (h : Inside code base k s)
    (hi : code[k]? = some (.branch test a b offset))
    (hl : if test.holds (s.reg a) (s.reg b) then (l : Int) = k + offset.toInt else l = k + 1) :
    ∃ t, Works code base s l t ∧ t.reg = s.reg :=
  works_of_jump h ⟨s.pc, .branch test a b offset, h.step_branch hi hl⟩

/-- A load. -/
theorem works_load {rt source : Reg} {offset : Int16} (h : Inside code base k s) (hi : code[k]? = some (.lw rt source offset))
    (ha : CanAccess s (s.reg source + Word.ofImm offset)) :
    ∃ t, Works code base s (k + 1) t ∧ t.reg = setReg s.reg rt (s.memory.read (s.reg source + Word.ofImm offset)) := by
  refine works_of_set h hi rfl ⟨s.pc, .lw rt source offset, ?_⟩
  rw [h.step_eq hi, State.exec, State.reg_advance]
  simp only [accessFault?_eq_none ha]; rfl

/-- A store that spares the image. -/
theorem Inside.step_store {r pointer : Reg} {offset : Int16} (h : Inside code base k s)
    (hi : code[k]? = some (.sw r pointer offset)) (room : CanStore s (s.reg pointer + Word.ofImm offset)) :
    ∃ t, Goes s t ∧ Inside code base (k + 1) t ∧ SameImage s t ∧ t.reg = s.reg ∧ t.sreg = s.sreg ∧
      t.memory = s.memory.write (s.reg pointer + Word.ofImm offset) (s.reg r) := by
  have goes : Goes s (s.advance.store (s.reg pointer + Word.ofImm offset) (s.reg r)) := by
    refine ⟨s.pc, .sw r pointer offset, ?_⟩
    rw [h.step_eq hi, State.exec, State.reg_advance]
    simp only [accessFault?_eq_none room.access]
  have same : SameImage s (s.advance.store (s.reg pointer + Word.ofImm offset) (s.reg r)) := .store room rfl rfl
  refine ⟨_, goes, ⟨h.toStands.of_same same, ?_, h.zero⟩, same, rfl, rfl, rfl⟩
  rw [← Nat.add_assoc, ← addressOf_succ, ← h.pc]; rfl

end

/-! ## Images -/

section

variable {image : List Instr} {k l : Nat} {i : Instr} {s t : State}

/-- An image is code at the start of itself. -/
theorem At.inside (h : At image k s) : Inside image 0 k s where
  inside := by
    rw [h.imageEnd, toNat_addressOf h.small, Nat.zero_add]
  fits := by
    rw [h.imageEnd, toNat_addressOf h.small]
    exact h.fits
  fetch j i hj := by
    rw [Nat.zero_add]
    exact h.fetch j i hj
  pc := by
    rw [Nat.zero_add]
    exact h.pc
  zero := h.zero

/-- Code that stands at the start of an image, up to its end, is the image. -/
theorem Inside.at_image (h : Inside image 0 l t) (hk : At image k s) (imageEnd : t.imageEnd = s.imageEnd) : At image l t where
  imageEnd := by rw [imageEnd, hk.imageEnd]
  fits := by
    have inside := h.inside
    have fits := h.fits
    omega
  small := hk.small
  fetch j i hj := by
    have word := h.fetch j i hj
    rwa [Nat.zero_add] at word
  pc := by
    have pc := h.pc
    rwa [Nat.zero_add] at pc
  zero := h.zero

theorem Works.computes (h : Works image 0 s l t) (hk : At image k s) : Computes image s l t where
  runs := h.runs
  at_end := by
    have pc := h.inside.pc
    rw [Nat.zero_add] at pc
    exact hk.of_rest h.memory h.imageEnd pc h.inside.zero
  memory := h.memory
  sregs := h.sregs

theorem computes_of_works (h : At image k s) {regs : Reg → Word} (works : ∃ t, Works image 0 s l t ∧ t.reg = regs) :
    ∃ t, Computes image s l t ∧ t.reg = regs := by
  obtain ⟨t, ht, regs_t⟩ := works
  exact ⟨t, ht.computes h, regs_t⟩

theorem computes_one (h : At image k s) (hi : image[k]? = some i) {regs : Reg → Word} (hr : computed? i s.reg = some regs) :
    ∃ t, Computes image s (k + 1) t ∧ t.reg = regs := computes_of_works h (works_one h.inside hi hr)

theorem computes_branch {test : PairTest} {a b : Reg} {offset : Int16} (h : At image k s)
    (hi : image[k]? = some (.branch test a b offset))
    (hl : if test.holds (s.reg a) (s.reg b) then (l : Int) = k + offset.toInt else l = k + 1) :
    ∃ t, Computes image s l t ∧ t.reg = s.reg := computes_of_works h (works_branch h.inside hi hl)

theorem computes_load {rt base : Reg} {offset : Int16} (h : At image k s) (hi : image[k]? = some (.lw rt base offset))
    (ha : CanAccess s (s.reg base + Word.ofImm offset)) :
    ∃ t, Computes image s (k + 1) t ∧ t.reg = setReg s.reg rt (s.memory.read (s.reg base + Word.ofImm offset)) :=
  computes_of_works h (works_load h.inside hi ha)

/-! ### Jumps -/

theorem shiftLeft_two (l : Nat) : UInt32.ofNat l <<< 2 = addressOf l := by
  apply UInt32.toNat_inj.1
  rw [UInt32.toNat_shiftLeft, addressOf, UInt32.toNat_ofNat', UInt32.toNat_ofNat', Nat.shiftLeft_eq]
  show l % 4294967296 * 4 % 4294967296 = 4 * l % 4294967296
  omega

/-- A step that only goes on elsewhere in the image. -/
theorem computes_of_jump (h : At image k s) (goes : Goes s (s.advance.jumpTo (addressOf l))) :
    ∃ t, Computes image s l t ∧ t.reg = s.reg :=
  computes_of_works h (works_of_jump h.inside (by rwa [Nat.zero_add]))

theorem computes_jump (h : At image k s) (hi : image[k]? = some (.jump false (UInt32.ofNat l))) :
    ∃ t, Computes image s l t ∧ t.reg = s.reg :=
  computes_of_jump h ⟨s.pc, _, by rw [h.step_eq hi, State.exec, shiftLeft_two]⟩

theorem computes_jumpReg {r : Reg} (h : At image k s) (hi : image[k]? = some (.jr r)) (hr : s.reg r = addressOf l) :
    ∃ t, Computes image s l t ∧ t.reg = s.reg :=
  computes_of_jump h ⟨s.pc, _, by rw [h.step_eq hi, State.exec, State.reg_advance, hr]⟩

theorem computes_jumpLink (h : At image k s) (hi : image[k]? = some (.jump true (UInt32.ofNat l))) :
    ∃ t, Runs 1 s t ∧ Computes image s l t ∧ t.reg = setReg s.reg .ra (addressOf (k + 1)) := by
  have goes : Goes s ((s.advance.setReg .ra (addressOf (k + 1))).jumpTo (addressOf l)) := by
    refine ⟨s.pc, .jump true (UInt32.ofNat l), ?_⟩
    rw [h.step_eq hi, State.exec, shiftLeft_two, h.pc, addressOf_succ]
  have regs : ((s.advance.setReg .ra (addressOf (k + 1))).jumpTo (addressOf l)).reg = setReg s.reg .ra (addressOf (k + 1)) :=
    State.reg_setReg _ _ _
  have zero : ((s.advance.setReg .ra (addressOf (k + 1))).jumpTo (addressOf l)).reg .zero = 0 := by
    rw [regs]
    exact setReg_zero h.zero _ _
  have memory : ((s.advance.setReg .ra (addressOf (k + 1))).jumpTo (addressOf l)).memory = s.memory :=
    State.memory_setReg _ _ _
  have reached := h.of_rest memory (State.imageEnd_setReg s.advance _ _) rfl zero
  exact ⟨_, goes.runs, ⟨⟨1, goes.runs⟩, reached, memory, State.sregs_setReg _ _ _⟩, regs⟩

end

/-! ## Placing code -/

/-- Legal code can be placed at any base for which there is room, as the end of an image, in a machine with any contents of the
    registers. -/
theorem exists_at_end (code : List Instr) (legal : ∀ i ∈ code, i.IsLegal) (base : Nat) (regs : Reg → Word)
    (zero : regs .zero = 0) {size : Nat} (fits : 4 * (base + code.length) ≤ size) (small : 4 * (base + code.length) < fullSize) :
    ∃ s, Inside code base 0 s ∧ s.reg = regs ∧ s.memory.size = size ∧ s.imageEnd = addressOf (base + code.length) := by
  -- the words before the code are stops, which nothing looks at
  have length : (List.replicate base Instr.halt ++ code).length = base + code.length := by
    rw [List.length_append, List.length_replicate]
  have all_legal : ∀ i ∈ List.replicate base Instr.halt ++ code, i.IsLegal := by
    intro i hi
    rcases List.mem_append.1 hi with hi | hi
    · rw [List.eq_of_mem_replicate hi]
      trivial
    · exact legal i hi
  obtain ⟨s, -, held, memory, -⟩ := holds_load size (length ▸ fits) (length ▸ small) all_legal
  have stands : Stands code base s := by
    have right := Stands.right (k := 0) held.inside.toStands
    rwa [List.length_replicate, Nat.zero_add] at right
  let t : State := { s with regs := Vector.ofFn fun n => regs ⟨n⟩, pc := addressOf base }
  have regs_t : t.reg = regs := by
    funext r
    show (Vector.ofFn fun n => regs ⟨n⟩)[r.num.val] = regs r
    rw [Vector.getElem_ofFn]
  refine ⟨t, ⟨stands.of_same (.of_memory rfl rfl), rfl, ?_⟩, regs_t, memory, ?_⟩
  · rw [regs_t, zero]
  · rw [← length]
    exact held.imageEnd

/-- Legal code for which there is room can be the image of a machine that is anywhere in it, with any contents of the registers. -/
theorem exists_at (image : List Instr) (legal : ∀ i ∈ image, i.IsLegal) (k : Nat) (regs : Reg → Word) (zero : regs .zero = 0)
    {size : Nat} (fits : 4 * image.length ≤ size) (small : 4 * image.length < fullSize) :
    ∃ s, At image k s ∧ s.reg = regs ∧ s.memory.size = size := by
  rw [← Nat.zero_add image.length] at fits small
  obtain ⟨s, inside, contents, room, imageEnd⟩ := exists_at_end image legal 0 regs zero fits small
  rw [Nat.zero_add] at imageEnd fits small
  have start : At image 0 s := by
    refine ⟨⟨imageEnd, room.symm ▸ fits, small, fun j i hj => ?_⟩, inside.pc, inside.zero⟩
    have word := inside.fetch j i hj
    rwa [Nat.zero_add] at word
  exact ⟨{ s with pc := addressOf k }, start.of_rest (t := { s with pc := addressOf k }) rfl rfl rfl start.zero, contents, room⟩

/-- Legal code can be placed at any base for which there is room, in a machine with any contents of the registers. -/
theorem exists_inside (code : List Instr) (legal : ∀ i ∈ code, i.IsLegal) (base : Nat) (regs : Reg → Word)
    (zero : regs .zero = 0) {size : Nat} (fits : 4 * (base + code.length) ≤ size) (small : 4 * (base + code.length) < fullSize) :
    ∃ s, Inside code base 0 s ∧ s.reg = regs ∧ s.memory.size = size := by
  obtain ⟨s, inside, contents, room, -⟩ := exists_at_end code legal base regs zero fits small
  exact ⟨s, inside, contents, room⟩

end M32.Machine
