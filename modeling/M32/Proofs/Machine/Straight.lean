/-
  Loads, stores and moves in a row, in whatever image they stand.

  1. `Memory.writeAll` writes several words.  At addresses that differ each of them can be read afterwards, and nothing else
     has changed.
  2. `Stands code k s` says that instruction `k` of the image is the first of `code`.  Nothing is asked of the rest of the
     image, which need not be instructions.
  3. `Passes code k s t` is a run through `code` that leaves the image as it was.  One instruction at a time gives a run
     through all of them (`Passes.trans`).
  4. Registers and special registers are stored at offsets from a base, or taken from there: `passes_stores`,
     `passes_storeSpecials`, `passes_loads` and `passes_loadSpecials`, each by induction on what is moved.
-/
import M32.Proofs.Machine.Effects

namespace M32.Machine

/-! ## Several words -/

namespace Memory

variable {m : Memory} {ps : List (Word × Word)} {a b w : Word}

/-- Memory with words written at their addresses, one after another. -/
def writeAll (m : Memory) : List (Word × Word) → Memory
  | [] => m
  | (a, w) :: rest => (m.write a w).writeAll rest

theorem writeAll_append (m : Memory) (ps qs : List (Word × Word)) : m.writeAll (ps ++ qs) = (m.writeAll ps).writeAll qs := by
  induction ps generalizing m with
  | nil => rfl
  | cons p ps ih => exact ih (m.write p.1 p.2)

/-- A word that is not written to. -/
theorem read_writeAll_of_ne (aligned : ∀ p ∈ ps, p.1.toNat % 4 = 0) (hb : b.toNat % 4 = 0) (ne : ∀ p ∈ ps, p.1 ≠ b) :
    (m.writeAll ps).read b = m.read b := by
  induction ps generalizing m with
  | nil => rfl
  | cons p ps ih =>
    have rest := ih (m := m.write p.1 p.2) (fun q hq => aligned q (List.mem_cons_of_mem _ hq))
      (fun q hq => ne q (List.mem_cons_of_mem _ hq))
    have first := read_write m (aligned p List.mem_cons_self) hb p.2
    rw [if_neg (ne p List.mem_cons_self)] at first
    exact rest.trans first

/-- A word that is written once. -/
theorem read_writeAll_of_mem (aligned : ∀ p ∈ ps, p.1.toNat % 4 = 0) (once : (ps.map Prod.fst).Nodup) (h : (a, w) ∈ ps) :
    (m.writeAll ps).read a = w := by
  induction ps generalizing m with
  | nil => cases h
  | cons p ps ih =>
    have later : ∀ q ∈ ps, q.1.toNat % 4 = 0 := fun q hq => aligned q (List.mem_cons_of_mem _ hq)
    rw [List.map_cons, List.nodup_cons] at once
    obtain ⟨fresh, once⟩ := once
    rcases List.mem_cons.1 h with rfl | h
    · have ne : ∀ q ∈ ps, q.1 ≠ a := by
        rintro q hq rfl
        exact fresh (List.mem_map.2 ⟨q, hq, rfl⟩)
      have ha := aligned (a, w) List.mem_cons_self
      exact (read_writeAll_of_ne later ha ne).trans ((read_write m ha ha w).trans (if_pos rfl))
    · exact ih later once h

end Memory

/-! ## Code in an image -/

/-- Whether the image of a machine is that of another. -/
structure SameImage (s t : State) : Prop where
  imageEnd : t.imageEnd = s.imageEnd
  size : t.memory.size = s.memory.size
  word : ∀ a : Word, a.toNat % 4 = 0 → a.toNat < s.imageEnd.toNat → t.memory.read a = s.memory.read a

/-- Whether some instructions stand in the image, the first of them as its instruction `k`. -/
structure Stands (code : List Instr) (k : Nat) (s : State) : Prop where
  inside : 4 * (k + code.length) ≤ s.imageEnd.toNat
  fits : s.imageEnd.toNat ≤ s.memory.size
  fetch : ∀ j i, code[j]? = some i → Instr.decode (s.memory.read (addressOf (k + j))) = .ok i

/-- A run through some instructions, the first of them instruction `k`, that leaves the image as it was. -/
structure Passes (code : List Instr) (k : Nat) (s t : State) : Prop extends SameImage s t where
  runs : Runs code.length s t
  pc : t.pc = addressOf (k + code.length)

section

variable {code rest : List Instr} {i : Instr} {k : Nat} {s t u : State}

theorem SameImage.refl (s : State) : SameImage s s := ⟨rfl, rfl, fun _ _ _ => rfl⟩

theorem SameImage.trans (h : SameImage s t) (g : SameImage t u) : SameImage s u where
  imageEnd := g.imageEnd.trans h.imageEnd
  size := g.size.trans h.size
  word a aligned before := by
    rw [g.word a aligned (by rwa [h.imageEnd]), h.word a aligned before]

theorem SameImage.of_memory (imageEnd : t.imageEnd = s.imageEnd) (memory : t.memory = s.memory) : SameImage s t :=
  ⟨imageEnd, by rw [memory], fun a _ _ => by rw [memory]⟩

theorem Stands.left (h : Stands (code ++ rest) k s) : Stands code k s where
  inside := by
    have inside := h.inside
    rw [List.length_append] at inside
    omega
  fits := h.fits
  fetch j i hj := by
    have lt : j < code.length := (List.getElem?_eq_some_iff.1 hj).1
    exact h.fetch j i (by rw [List.getElem?_append_left lt, hj])

theorem Stands.right (h : Stands (code ++ rest) k s) : Stands rest (k + code.length) s where
  inside := by
    have inside := h.inside
    rw [List.length_append] at inside
    omega
  fits := h.fits
  fetch j i hj := by
    have at_end := h.fetch (code.length + j) i (by rw [List.getElem?_append_right (by omega)]; simpa using hj)
    rwa [Nat.add_assoc]

theorem Stands.of_same (h : Stands code k s) (same : SameImage s t) : Stands code k t where
  inside := by rw [same.imageEnd]; exact h.inside
  fits := by rw [same.imageEnd, same.size]; exact h.fits
  fetch j i hj := by
    have lt : j < code.length := (List.getElem?_eq_some_iff.1 hj).1
    have inside := h.inside
    have last : s.imageEnd.toNat < fullSize := s.imageEnd.toNat_lt
    have address := toNat_addressOf (k := k + j) (by omega)
    rw [same.word _ (by omega) (by omega)]
    exact h.fetch j i hj

/-- Code that lies in an image stands in a machine that holds it. -/
theorem Holds.stands {image : List Instr} (h : Holds image s) (lies : Lies image k code) (some_code : 0 < code.length) :
    Stands code k s where
  inside := by
    have within := lies.length_le some_code
    rw [h.imageEnd, toNat_addressOf h.small]
    omega
  fits := by
    rw [h.imageEnd, toNat_addressOf h.small]
    exact h.fits
  fetch j i hj := h.fetch (k + j) i (lies j i hj)

/-- The instructions behind those that a run went through. -/
theorem Stands.after (h : Stands (code ++ rest) k s) (first : Passes code k s t) : Stands rest (k + code.length) t :=
  h.right.of_same first.toSameImage

theorem Passes.refl (pc : s.pc = addressOf k) : Passes [] k s s := ⟨.refl s, .refl s, pc⟩

theorem Passes.trans (h : Passes code k s t) (g : Passes rest (k + code.length) t u) : Passes (code ++ rest) k s u where
  toSameImage := h.toSameImage.trans g.toSameImage
  runs := by
    rw [List.length_append]
    exact h.runs.trans g.runs
  pc := by
    rw [List.length_append, ← Nat.add_assoc]
    exact g.pc

/-- One instruction that goes on with the next. -/
theorem passes_one (h : Stands [i] k s) (pc : s.pc = addressOf k) (carried : s.advance.exec s.pc i = (t, .ok none))
    (next : t.pc = s.advance.pc) (same : SameImage s t) : Passes [i] k s t where
  toSameImage := same
  runs := by
    have inside := h.inside
    have fits := h.fits
    rw [List.length_singleton] at inside
    have step := step_of_fetch pc (by omega) (by omega) (h.fetch 0 i rfl)
    rw [carried] at step
    exact Goes.runs ⟨s.pc, i, step⟩
  pc := by
    rw [next, List.length_singleton, ← addressOf_succ, ← pc]
    rfl

end

/-! ## One instruction -/

section

variable {k : Nat} {s : State} {r base : Reg} {q : SReg} {offset : Int16}

/-- A move out of a special register. -/
theorem passes_mfs (h : Stands [.mfs r q] k s) (pc : s.pc = addressOf k) :
    ∃ t, Passes [.mfs r q] k s t ∧ t.reg = setReg s.reg r (s.sreg q) ∧ t.sreg = s.sreg ∧ t.memory = s.memory := by
  have memory : (s.advance.setReg r (s.sreg q)).memory = s.memory := State.memory_setReg _ _ _
  have imageEnd : (s.advance.setReg r (s.sreg q)).imageEnd = s.imageEnd := State.imageEnd_setReg _ _ _
  refine ⟨s.advance.setReg r (s.sreg q), passes_one h pc rfl (State.pc_setReg _ _ _) (.of_memory imageEnd memory), ?_, ?_, memory⟩
  · exact State.reg_setReg _ _ _
  · funext p
    rw [State.sreg, State.sregs_setReg]; rfl

/-- A move into a special register. -/
theorem passes_mts (h : Stands [.mts r q] k s) (pc : s.pc = addressOf k) :
    ∃ t, Passes [.mts r q] k s t ∧ t.reg = s.reg ∧ (∀ p, t.sreg p = if q = p then s.reg r else s.sreg p) ∧
      t.memory = s.memory := by
  refine ⟨s.advance.setSReg q (s.reg r), passes_one h pc rfl rfl (.of_memory rfl rfl), rfl, ?_, rfl⟩
  intro p
  exact sreg_setSReg s.advance q p (s.reg r)

/-- A load. -/
theorem passes_lw (h : Stands [.lw r base offset] k s) (pc : s.pc = addressOf k)
    (access : CanAccess s (s.reg base + Word.ofImm offset)) :
    ∃ t, Passes [.lw r base offset] k s t ∧ t.reg = setReg s.reg r (s.memory.read (s.reg base + Word.ofImm offset)) ∧
      t.sreg = s.sreg ∧ t.memory = s.memory := by
  have carried : s.advance.exec s.pc (.lw r base offset) =
      (s.advance.setReg r (s.memory.read (s.reg base + Word.ofImm offset)), .ok none) := by
    rw [State.exec, State.reg_advance]
    simp only [accessFault?_eq_none access]
    rfl
  refine ⟨_, passes_one h pc carried (State.pc_setReg _ _ _) (.of_memory (State.imageEnd_setReg _ _ _) (State.memory_setReg _ _ _)),
    State.reg_setReg _ _ _, ?_, State.memory_setReg _ _ _⟩
  funext p
  rw [State.sreg, State.sregs_setReg]; rfl

/-- Whether a word can be stored that is not of the image. -/
structure CanStore (s : State) (a : Word) : Prop where
  access : CanAccess s a
  behind : s.imageEnd.toNat ≤ a.toNat

theorem CanAccess.of_size {t : State} {a : Word} (h : CanAccess s a) (size : t.memory.size = s.memory.size) : CanAccess t a := by
  obtain ⟨aligned, inside⟩ := h
  exact ⟨aligned, by rwa [size]⟩

theorem CanStore.of_same {t : State} {a : Word} (h : CanStore s a) (same : SameImage s t) : CanStore t a :=
  ⟨h.access.of_size same.size, by rw [same.imageEnd]; exact h.behind⟩

theorem SameImage.store {t : State} {a w : Word} (h : CanStore s a) (imageEnd : t.imageEnd = s.imageEnd)
    (memory : t.memory = s.memory.write a w) : SameImage s t where
  imageEnd := imageEnd
  size := by rw [memory]; rfl
  word b aligned before := by
    have behind := h.behind
    have ne : a ≠ b := by
      rintro rfl
      omega
    rw [memory, Memory.read_write _ h.access.1 aligned, if_neg ne]

/-- A store. -/
theorem passes_sw (h : Stands [.sw r base offset] k s) (pc : s.pc = addressOf k)
    (room : CanStore s (s.reg base + Word.ofImm offset)) :
    ∃ t, Passes [.sw r base offset] k s t ∧ t.reg = s.reg ∧ t.sreg = s.sreg ∧
      t.memory = s.memory.write (s.reg base + Word.ofImm offset) (s.reg r) := by
  have carried : s.advance.exec s.pc (.sw r base offset) =
      (s.advance.store (s.reg base + Word.ofImm offset) (s.reg r), .ok none) := by
    rw [State.exec, State.reg_advance]
    simp only [accessFault?_eq_none room.access]
  exact ⟨_, passes_one h pc carried rfl (.store room rfl rfl), rfl, rfl, rfl⟩

end

/-! ## Many registers -/

section

variable {k : Nat} {s : State} {base tmp : Reg}

/-- The address at an offset from a base register. -/
def State.at (s : State) (base : Reg) (offset : Int16) : Word := s.reg base + Word.ofImm offset

/-- Registers are stored at offsets from a base. -/
theorem passes_stores {slots : List (Reg × Int16)} (h : Stands (slots.map fun p => .sw p.1 base p.2) k s)
    (pc : s.pc = addressOf k) (room : ∀ p ∈ slots, CanStore s (s.at base p.2)) :
    ∃ t, Passes (slots.map fun p => .sw p.1 base p.2) k s t ∧ t.reg = s.reg ∧ t.sreg = s.sreg ∧
      t.memory = s.memory.writeAll (slots.map fun p => (s.at base p.2, s.reg p.1)) := by
  -- on the slots: a store leaves all registers, so the values of those after it are still there
  induction slots generalizing k s with
  | nil => exact ⟨s, .refl pc, rfl, rfl, rfl⟩
  | cons p slots ih =>
    rw [List.map_cons, ← List.singleton_append] at h
    obtain ⟨t, first, regs, sregs, memory⟩ := passes_sw h.left pc (room p List.mem_cons_self)
    have later : ∀ q ∈ slots, CanStore t (t.at base q.2) := by
      intro q hq
      rw [State.at, regs]
      exact (room q (List.mem_cons_of_mem _ hq)).of_same first.toSameImage
    obtain ⟨u, rest, regs_u, sregs_u, memory_u⟩ := ih (h.after first) first.pc later
    refine ⟨u, first.trans rest, regs_u.trans regs, sregs_u.trans sregs, ?_⟩
    rw [memory_u, memory]
    simp only [State.at, regs]
    rfl

/-- Registers are loaded from offsets from a base, which is none of them. -/
theorem passes_loads {slots : List (Reg × Int16)} (h : Stands (slots.map fun p => .lw p.1 base p.2) k s)
    (pc : s.pc = addressOf k) (access : ∀ p ∈ slots, CanAccess s (s.at base p.2)) (once : (slots.map Prod.fst).Nodup)
    (other : ∀ p ∈ slots, p.1 ≠ base ∧ p.1 ≠ .zero) :
    ∃ t, Passes (slots.map fun p => .lw p.1 base p.2) k s t ∧ t.sreg = s.sreg ∧ t.memory = s.memory ∧
      (∀ p ∈ slots, t.reg p.1 = s.memory.read (s.at base p.2)) ∧ ∀ r, r ∉ slots.map Prod.fst → t.reg r = s.reg r := by
  induction slots generalizing k s with
  | nil => exact ⟨s, .refl pc, rfl, rfl, nofun, fun _ _ => rfl⟩
  | cons p slots ih =>
    rw [List.map_cons, List.nodup_cons] at once
    obtain ⟨fresh, once⟩ := once
    obtain ⟨not_base, not_zero⟩ := other p List.mem_cons_self
    rw [List.map_cons, ← List.singleton_append] at h
    obtain ⟨t, first, regs, sregs, memory⟩ := passes_lw h.left pc (access p List.mem_cons_self)
    have same_at (o : Int16) : t.at base o = s.at base o := by
      rw [State.at, regs, setReg_of_ne not_base.symm]; rfl
    have later : ∀ q ∈ slots, CanAccess t (t.at base q.2) := by
      intro q hq
      rw [same_at]
      exact (access q (List.mem_cons_of_mem _ hq)).of_size first.size
    obtain ⟨u, rest, sregs_u, memory_u, loaded, kept⟩ :=
      ih (h.after first) first.pc later once fun q hq => other q (List.mem_cons_of_mem _ hq)
    refine ⟨u, first.trans rest, sregs_u.trans sregs, memory_u.trans memory, ?_, ?_⟩
    · intro q hq
      rcases List.mem_cons.1 hq with rfl | hq
      · rw [kept _ fresh, regs, setReg_self not_zero]; rfl
      · rw [loaded q hq, memory, same_at]
    · intro r hr
      rw [List.map_cons, List.mem_cons, not_or] at hr
      rw [kept r hr.2, regs, setReg_of_ne hr.1]

/-- Special registers are stored at offsets from a base, each by way of `tmp`. -/
theorem passes_storeSpecials {slots : List (SReg × Int16)}
    (h : Stands (slots.flatMap fun p => [.mfs tmp p.1, .sw tmp base p.2]) k s) (pc : s.pc = addressOf k)
    (room : ∀ p ∈ slots, CanStore s (s.at base p.2)) (other : tmp ≠ base) (writable : tmp ≠ .zero) :
    ∃ t, Passes (slots.flatMap fun p => [.mfs tmp p.1, .sw tmp base p.2]) k s t ∧ t.sreg = s.sreg ∧
      (∀ r, r ≠ tmp → t.reg r = s.reg r) ∧
      t.memory = s.memory.writeAll (slots.map fun p => (s.at base p.2, s.sreg p.1)) := by
  induction slots generalizing k s with
  | nil => exact ⟨s, .refl pc, rfl, fun _ _ => rfl, rfl⟩
  | cons p slots ih =>
    rw [List.flatMap_cons] at h
    have h : Stands ([.mfs tmp p.1] ++ ([.sw tmp base p.2] ++ slots.flatMap _)) k s := h
    obtain ⟨t, moved, regs, sregs, memory⟩ := passes_mfs h.left pc
    have same_at (o : Int16) : t.at base o = s.at base o := by
      rw [State.at, regs, setReg_of_ne other.symm]; rfl
    have store_room : CanStore t (t.at base p.2) := by
      rw [same_at]
      exact (room p List.mem_cons_self).of_same moved.toSameImage
    have h' := h.after moved
    obtain ⟨u, stored, regs_u, sregs_u, memory_u⟩ := passes_sw h'.left moved.pc store_room
    have first := moved.trans stored
    have later : ∀ q ∈ slots, CanStore u (u.at base q.2) := by
      intro q hq
      rw [State.at, regs_u]
      show CanStore u (t.at base q.2)
      rw [same_at]
      exact (room q (List.mem_cons_of_mem _ hq)).of_same first.toSameImage
    obtain ⟨v, rest, sregs_v, regs_v, memory_v⟩ := ih (h'.after stored) stored.pc later
    refine ⟨v, moved.trans (stored.trans rest), ?_, ?_, ?_⟩
    · rw [sregs_v, sregs_u, sregs]
    · intro r hr
      rw [regs_v r hr, regs_u, regs, setReg_of_ne hr]
    · have value : t.reg tmp = s.sreg p.1 := by rw [regs, setReg_self writable]
      have same_at' (o : Int16) : u.at base o = s.at base o := by
        rw [State.at, regs_u]
        exact same_at o
      have at_first : t.reg base + Word.ofImm p.2 = s.at base p.2 := same_at p.2
      rw [memory_v, memory_u, memory, value, at_first]
      simp only [same_at', sregs_u, sregs]
      rfl

/-- Special registers are loaded from offsets from a base, each by way of `tmp`. -/
theorem passes_loadSpecials {slots : List (SReg × Int16)}
    (h : Stands (slots.flatMap fun p => [.lw tmp base p.2, .mts tmp p.1]) k s) (pc : s.pc = addressOf k)
    (access : ∀ p ∈ slots, CanAccess s (s.at base p.2)) (once : (slots.map Prod.fst).Nodup) (other : tmp ≠ base)
    (writable : tmp ≠ .zero) :
    ∃ t, Passes (slots.flatMap fun p => [.lw tmp base p.2, .mts tmp p.1]) k s t ∧ t.memory = s.memory ∧
      (∀ r, r ≠ tmp → t.reg r = s.reg r) ∧ (∀ p ∈ slots, t.sreg p.1 = s.memory.read (s.at base p.2)) ∧
      ∀ q, q ∉ slots.map Prod.fst → t.sreg q = s.sreg q := by
  induction slots generalizing k s with
  | nil => exact ⟨s, .refl pc, rfl, fun _ _ => rfl, nofun, fun _ _ => rfl⟩
  | cons p slots ih =>
    rw [List.map_cons, List.nodup_cons] at once
    obtain ⟨fresh, once⟩ := once
    rw [List.flatMap_cons] at h
    have h : Stands ([.lw tmp base p.2] ++ ([.mts tmp p.1] ++ slots.flatMap _)) k s := h
    obtain ⟨t, loaded, regs, sregs, memory⟩ := passes_lw h.left pc (access p List.mem_cons_self)
    have h' := h.after loaded
    obtain ⟨u, moved, regs_u, sregs_u, memory_u⟩ := passes_mts h'.left loaded.pc
    have first := loaded.trans moved
    have same_at (o : Int16) : u.at base o = s.at base o := by
      rw [State.at, regs_u, regs, setReg_of_ne other.symm]; rfl
    have later : ∀ q ∈ slots, CanAccess u (u.at base q.2) := by
      intro q hq
      rw [same_at]
      exact (access q (List.mem_cons_of_mem _ hq)).of_size first.size
    obtain ⟨v, rest, memory_v, regs_v, taken, kept⟩ := ih (h'.after moved) moved.pc later once
    refine ⟨v, loaded.trans (moved.trans rest), ?_, ?_, ?_, ?_⟩
    · rw [memory_v, memory_u, memory]
    · intro r hr
      rw [regs_v r hr, regs_u, regs, setReg_of_ne hr]
    · intro q hq
      rcases List.mem_cons.1 hq with rfl | hq
      · rw [kept _ fresh, sregs_u, if_pos rfl, regs, setReg_self writable]; rfl
      · rw [taken q hq, memory_u, memory, same_at]
    · intro q hq
      rw [List.map_cons, List.mem_cons, not_or] at hq
      rw [kept q hq.2, sregs_u, if_neg fun e => hq.1 e.symm, sregs]

end

end M32.Machine
