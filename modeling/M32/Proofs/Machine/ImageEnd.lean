/-
  What happens at the end of an image.

  1. `State.step_past_image`: past its image a machine stops without a change.  It is looked first whether there is a word to
     fetch, so the stop is the end of the program only if memory has room for one word there, and a refused fetch if not.
  2. Once an image is loaded, nothing that is done to a machine moves the end of the image or changes the size of memory
     (`SameBounds.act`, `SameBounds.acts`).
  3. `stops_at_image_end` puts these together: how a machine stops at the end of its image is settled when it is loaded.
-/
import M32.Proofs.Assembly.Image
import M32.Proofs.Machine.Effects

namespace M32.Machine

variable {s t u : State} {words : List Word} {as : List Act}

/-! ## Past the image -/

/-- How a machine stops at an address where there is no instruction. -/
def stopAt (size : Nat) (pc : Word) : Except Trap Step :=
  if pc.toNat + 4 ≤ size then .ok ⟨pc, none, some .endOfProgram⟩ else .error (.fetchOutOfBounds pc)

namespace State

theorem step_past_image (aligned : s.pc.toNat % 4 = 0) (past : s.imageEnd ≤ s.pc) : s.step = (s, stopAt s.memory.size s.pc) := by
  have whole : ¬ s.pc % 4 ≠ 0 := by
    rw [ne_eq, Decidable.not_not, ← UInt32.toNat_inj, UInt32.toNat_mod]
    exact aligned
  rw [step, stopAt]
  simp only [if_neg whole, Memory.contains, if_pos past, Bool.not_eq_true', decide_eq_false_iff_not, ite_not]
  split <;> rfl

/-- The same stop ends every run that is long enough for a step. -/
theorem run_past_image (aligned : s.pc.toNat % 4 = 0) (past : s.imageEnd ≤ s.pc) (room : s.pc.toNat + 4 ≤ s.memory.size)
    (budget : Nat) : s.run (budget + 1) = (s, .ok .endOfProgram) := by
  have stop := step_past_image aligned past
  rw [stopAt, if_pos room] at stop
  exact run_halt stop budget

end State

/-! ## Bounds -/

/-- Whether the image of two machines ends at the same address, in memory of the same size. -/
structure SameBounds (s t : State) : Prop where
  imageEnd : t.imageEnd = s.imageEnd
  size : t.memory.size = s.memory.size

theorem ChangesOnly.size {p? : Option Place} (h : ChangesOnly p? s t) : t.memory.size = s.memory.size := by
  cases p? with
  | none => rw [h.memory nofun]
  | some p =>
    cases p with
    | reg r => rw [h.memory nofun]
    | sreg r => rw [h.memory nofun]
    | word a => exact (h.word a rfl).2.1

namespace SameBounds

theorem refl (s : State) : SameBounds s s := ⟨rfl, rfl⟩

theorem trans (h : SameBounds s t) (g : SameBounds t u) : SameBounds s u :=
  ⟨g.imageEnd.trans h.imageEnd, g.size.trans h.size⟩

theorem step (s : State) : SameBounds s s.step.1 := by
  rcases h : s.step with ⟨t, result⟩
  cases stepped_of_eq h with
  | refused | ended | trapped => exact ⟨rfl, rfl⟩
  | done decoded only => exact ⟨only.imageEnd, only.size⟩

theorem act (s : State) {a : Act} (h : ∀ words, a ≠ .load words) : SameBounds s (s.act a) := by
  cases a with
  | load words => exact absurd rfl (h words)
  | setReg r w => exact ⟨State.imageEnd_setReg s r w, congrArg Memory.size (State.memory_setReg s r w)⟩
  | setSReg r w => exact ⟨rfl, rfl⟩
  | jumpTo pc => exact ⟨rfl, rfl⟩
  | poke address w =>
    simp only [State.act, State.poke]
    cases s.accessFault? s.pc address with
    | some trap => exact .refl s
    | none => exact ⟨rfl, rfl⟩
  | step => exact step s
  | run budget => exact State.run_keeps (fun t kept => kept.trans (step t)) (.refl s) budget

theorem acts (s : State) (h : ∀ a ∈ as, ∀ words, a ≠ .load words) : SameBounds s (s.acts as) := by
  induction as generalizing s with
  | nil => exact .refl s
  | cons a as ih =>
    have first := act s (h a List.mem_cons_self)
    exact first.trans (ih (s.act a) fun b hb => h b (List.mem_cons_of_mem _ hb))

end SameBounds

/-! ## The end of a loaded image -/

/-- How a machine stops at the end of its image.  Whatever is done to a machine after it has loaded some words, runs, steps and
    changes from outside in any order, if its program counter comes to stand at the end of the image, then this is the address
    behind the words, and the next step leaves the machine as it is.
    1. With room for one word more in memory the step finds the end of the program, and so does a run on any budget.
    2. If the words fill memory but for less than a word, the step is a trap: the fetch is refused.
    3. There is always room in memory that fills the address space. -/
theorem stops_at_image_end {s₀ s : State} (loaded : s₀.load words = .ok s) (others : ∀ a ∈ as, ∀ ws, a ≠ .load ws)
    (reached : (s.acts as).pc = (s.acts as).imageEnd) :
    (s.acts as).pc.toNat = 4 * words.length ∧
    (4 * words.length + 4 ≤ s₀.memory.size →
      (s.acts as).step = (s.acts as, .ok ⟨(s.acts as).pc, none, some .endOfProgram⟩) ∧
      ∀ budget, (s.acts as).run (budget + 1) = (s.acts as, .ok .endOfProgram)) ∧
    (s₀.memory.size < 4 * words.length + 4 →
      (s.acts as).step = (s.acts as, .error (.fetchOutOfBounds (s.acts as).pc))) ∧
    (fullSize ≤ s₀.memory.size → 4 * words.length + 4 ≤ s₀.memory.size) := by
  obtain ⟨imageEnd, size⟩ := SameBounds.acts s others
  generalize s.acts as = t at reached imageEnd size
  obtain ⟨fits, small, rfl⟩ := load_eq_ok loaded
  have pc : t.pc.toNat = 4 * words.length := by
    rw [reached, imageEnd]
    exact toNat_addressOf small
  have room : t.memory.size = s₀.memory.size := size.trans (rest_storeAll s₀ (addressOf 0) words).1
  have aligned : t.pc.toNat % 4 = 0 := by
    rw [pc]
    exact Nat.mul_mod_right 4 _
  have past : t.imageEnd ≤ t.pc := reached ▸ UInt32.le_refl _
  have stop := State.step_past_image aligned past
  refine ⟨pc, ?_, ?_, ?_⟩
  · intro enough
    have enough : t.pc.toNat + 4 ≤ t.memory.size := by rwa [pc, room]
    rw [stopAt, if_pos enough] at stop
    exact ⟨stop, State.run_past_image aligned past enough⟩
  · intro full
    have full : ¬ t.pc.toNat + 4 ≤ t.memory.size := by
      rw [pc, room]
      omega
    rwa [stopAt, if_neg full] at stop
  · intro whole
    simp only [fullSize] at small whole
    omega

/-- The same instruction alone in memory of one word and in memory of two. -/
theorem stops_at_image_end_full :
    (∃ s, (State.ofSize 4).load [0x20420001] = .ok s ∧ (s.acts [.run 1]).pc = (s.acts [.run 1]).imageEnd ∧
      (s.acts [.run 1]).pc.toNat = 4 ∧ (s.acts [.run 1]).step = (s.acts [.run 1], .error (.fetchOutOfBounds (s.acts [.run 1]).pc))) ∧
    ∃ s, (State.ofSize 8).load [0x20420001] = .ok s ∧ (s.acts [.run 1]).pc = (s.acts [.run 1]).imageEnd ∧
      ∀ budget, (s.acts [.run 1]).run (budget + 1) = (s.acts [.run 1], .ok .endOfProgram) := by
  have reach (size : Nat) (h : size = 4 ∨ size = 8) : ∃ s, (State.ofSize size).load [0x20420001] = .ok s ∧
      (s.acts [.run 1]).pc = (s.acts [.run 1]).imageEnd := by
    have ends : ((State.ofSize size).load [0x20420001]).toOption.any (fun s =>
        decide ((s.acts [.run 1]).pc = (s.acts [.run 1]).imageEnd)) = true := by
      rcases h with rfl | rfl <;> decide +kernel
    cases loaded : (State.ofSize size).load [0x20420001] with
    | error e => rw [loaded] at ends; cases ends
    | ok s =>
      rw [loaded] at ends
      exact ⟨s, rfl, of_decide_eq_true ends⟩
  have others : ∀ a ∈ [Act.run 1], ∀ ws, a ≠ .load ws := by
    rintro a ha ws rfl
    cases List.mem_singleton.1 ha
  constructor
  · obtain ⟨s, loaded, reached⟩ := reach 4 (.inl rfl)
    obtain ⟨pc, -, full, -⟩ := stops_at_image_end loaded others reached
    exact ⟨s, loaded, reached, pc, full (by decide)⟩
  · obtain ⟨s, loaded, reached⟩ := reach 8 (.inr rfl)
    obtain ⟨-, room, -⟩ := stops_at_image_end loaded others reached
    exact ⟨s, loaded, reached, (room (by decide)).2⟩

end M32.Machine
