/-
  When a piece of code is produced, and which.

  1. One lemma for each of the pieces that `Emit` is built from says when it succeeds, with its value, its lines and the
     registers in use after it.
  2. A piece without lines in front of another only decides what the other starts from (`capture_bind`,
     `captureRetaining_bind`, `ofExcept_bind`).
  3. `exists_ok_of_any` is for pieces that are produced by a computation.
-/
import M32.Lang.Code.Stmt

namespace M32.Lang.Emit

variable {α β γ : Type} {p : RegPool}

/-! ## Pieces that succeed -/

theorem pure_eq_ok_iff (a : α) (r : Emitted α) : (pure a : Emit α) p = .ok r ↔ r = ⟨a, [], p⟩ := by
  rw [pure_apply, Except.ok.injEq, eq_comm]

theorem ofExcept_eq_ok_iff (e : Except Fault α) (r : Emitted α) : ofExcept e p = .ok r ↔ ∃ a, e = .ok a ∧ r = ⟨a, [], p⟩ := by
  cases e with
  | error fault => simp [ofExcept, Except.map]
  | ok a => simp [ofExcept, Except.map, eq_comm]

theorem fail_ne_ok (fault : Fault) (r : Emitted α) : (fail fault : Emit α) p ≠ .ok r := by simp [fail]

theorem lines_eq_ok_iff (code : List Line) (r : Emitted Unit) : lines code p = .ok r ↔ r = ⟨(), code, p⟩ := by
  rw [lines, Except.ok.injEq, eq_comm]

theorem instr_eq_ok_iff (i : Instr) (r : Emitted Unit) : instr i p = .ok r ↔ r = ⟨(), [.instr i], p⟩ := lines_eq_ok_iff _ r

theorem pseudo_eq_ok_iff (ps : Pseudo) (r : Emitted Unit) : pseudo ps p = .ok r ↔ ps.fault? = none ∧ r = ⟨(), [.pseudo ps], p⟩ := by
  unfold pseudo Line.ofPseudo
  cases ps.fault? with
  | some e => simp [Except.map]
  | none => simp [Except.map, eq_comm]

theorem registers_eq_ok_iff (change : RegPool → RegPool) (r : Emitted Unit) :
    registers change p = .ok r ↔ r = ⟨(), [], change p⟩ := by
  rw [registers, Except.ok.injEq, eq_comm]

theorem acquire_eq_ok_iff (fragment : String) (r : Emitted Reg) :
    acquire fragment p = .ok r ↔ ∃ reg q, p.acquire? = some (reg, q) ∧ r = ⟨reg, [], q⟩ := by
  unfold acquire
  cases p.acquire? with
  | none => simp
  | some a =>
    obtain ⟨reg, q⟩ := a
    constructor
    · rintro ⟨⟩
      exact ⟨reg, q, rfl, rfl⟩
    · rintro ⟨_, _, ⟨⟩, rfl⟩
      rfl

theorem capture_eq_ok_iff (x : Emit α) (r : Emitted (α × List Line)) :
    capture x p = .ok r ↔ ∃ a, x p = .ok a ∧ r = ⟨(a.value, a.code), [], a.pool⟩ := by
  unfold capture
  cases x p with
  | error fault => simp [Except.map]
  | ok a => simp [Except.map, eq_comm]

theorem captureRetaining_eq_ok_iff (c : Reg) (x : Emit Unit) (r : Emitted (List Line)) :
    captureRetaining c x p = .ok r ↔ ∃ a, x (p.retain c) = .ok a ∧ r = ⟨a.code, [], a.pool.unretain c⟩ := by
  unfold captureRetaining
  simp only [bind_eq_ok_iff, registers_eq_ok_iff, capture_eq_ok_iff, pure_eq_ok_iff]
  constructor
  · rintro ⟨_, _, rfl, ⟨_, _, ⟨a, ha, rfl⟩, ⟨_, _, rfl, rfl, rfl⟩, rfl⟩, rfl⟩
    exact ⟨a, ha, rfl⟩
  · rintro ⟨a, ha, rfl⟩
    exact ⟨_, _, rfl, ⟨_, _, ⟨a, ha, rfl⟩, ⟨_, _, rfl, rfl, rfl⟩, rfl⟩, rfl⟩

/-! ## Pieces without lines -/

theorem bind_of_map {x : Emit α} {e : Except Fault γ} {value : γ → α} {pool : γ → RegPool}
    (hx : x p = e.map fun a => ⟨value a, [], pool a⟩) (f : α → Emit β) :
    (x >>= f) p = e.bind fun a => f (value a) (pool a) := by
  cases e with
  | error fault =>
    simp only [bind, hx]; rfl
  | ok a =>
    simp only [bind, hx, Except.map, Except.bind]
    cases f (value a) (pool a) with
    | _ => rfl

theorem ofExcept_bind (e : Except Fault α) (f : α → Emit β) : (ofExcept e >>= f) p = e.bind fun a => f a p := bind_of_map rfl f

theorem capture_bind (x : Emit α) (f : α × List Line → Emit β) :
    (capture x >>= f) p = (x p).bind fun a => f (a.value, a.code) a.pool := bind_of_map rfl f

theorem registers_bind (change : RegPool → RegPool) (f : Unit → Emit β) : (registers change >>= f) p = f () (change p) := by
  have hx : registers change p = (Except.ok () : Except Fault Unit).map fun _ => ⟨(), [], change p⟩ := rfl
  rw [bind_of_map hx]; rfl

theorem captureRetaining_bind (c : Reg) (x : Emit Unit) (f : List Line → Emit β) :
    (captureRetaining c x >>= f) p = (x (p.retain c)).bind fun a => f a.code (a.pool.unretain c) := by
  refine bind_of_map ?_ f
  unfold captureRetaining
  rw [registers_bind, capture_bind]
  cases x (p.retain c) with
  | _ => rfl

end M32.Lang.Emit

namespace M32.Lang

/-- What a test finds of the value of something that may fail. -/
theorem exists_ok_of_any {ε α : Type} {x : Except ε α} {good : α → Bool} (h : x.toOption.any good = true) :
    ∃ a, x = .ok a ∧ good a = true := by
  cases x with
  | error e => cases h
  | ok a => exact ⟨a, rfl, h⟩

end M32.Lang
