/-
  Runs that write to registers at most.

  1. The machine is deterministic: a run is known by its start and its length (`Runs.unique`), and none goes on
     after a signal (`Runs.le_of_signals`).
  2. `Quiet lo hi n s t` is a run of `n` steps that goes forward through instructions from `lo` on and before `hi`, none of which
     writes to memory or to a special register.  Instructions in a row that compute are carried out quietly, one step each
     (`quiet_straight`), and so are branches (`quiet_branch`).
  3. `Signals s w` says that the next step ends the program with a signal, and `Stops lo hi s w` that a quiet run through these
     instructions comes to such a state.  A machine that comes to instruction `hi` has not stopped so (`Runs.not_stops`).
-/
import M32.Proofs.Machine.Computing

namespace M32.Machine

variable {code : List Instr} {base k l m n lo hi : Nat} {i : Instr} {s t u : State} {w : Word}

/-! ## One run only -/

theorem Goes.unique (h : Goes s t) (g : Goes s u) : t = u := by
  obtain ⟨_, _, h⟩ := h
  obtain ⟨_, _, g⟩ := g
  exact congrArg Prod.fst (h.symm.trans g)

theorem Runs.unique (h : Runs n s t) (g : Runs n s u) : t = u := by
  induction h with
  | refl s =>
    cases g
    rfl
  | step first _ ih =>
    cases g with
    | step first' rest' => exact ih (first.unique first' ▸ rest')

/-- The first steps of a run, and the rest. -/
theorem Runs.split (h : Runs (m + n) s t) : ∃ u, Runs m s u ∧ Runs n u t := by
  induction m generalizing s with
  | zero => exact ⟨s, .refl s, by rwa [Nat.zero_add] at h⟩
  | succ m ih =>
    rw [Nat.add_right_comm] at h
    cases h with
    | step first rest =>
      obtain ⟨u, before, after⟩ := ih rest
      exact ⟨u, .step first before, after⟩

/-- Whether the next step ends the program with a signal. -/
def Signals (s : State) (w : Word) : Prop := ∃ t pc i?, s.step = (t, .ok ⟨pc, i?, some (.signal w)⟩)

/-- No run is longer than one that comes to a signal. -/
theorem Runs.le_of_signals (h : Runs m s t) (g : Runs n s u) (signals : Signals u w) : m ≤ n := by
  refine Nat.le_of_not_lt fun longer => ?_
  obtain ⟨d, rfl⟩ : ∃ d, m = n + (d + 1) := ⟨m - (n + 1), by omega⟩
  obtain ⟨v, first, rest⟩ := h.split
  obtain rfl := first.unique g
  obtain ⟨_, _, _, halts⟩ := signals
  cases rest with
  | step goes _ =>
    obtain ⟨_, _, goes⟩ := goes
    cases (congrArg Prod.snd (halts.symm.trans goes))

/-- What a step changes, by the instruction that the image has there. -/
theorem Goes.changes {image : List Instr} (h : Goes s t) (hk : At image k s) (hi : image[k]? = some i) :
    ChangesOnly (destination? s i) s t := by
  obtain ⟨_, j, h⟩ := h
  cases stepped_of_eq h with
  | done decoded only =>
    rw [hk.pc, hk.fetch k i hi] at decoded
    exact Except.ok.inj decoded ▸ only

/-! ## Quiet runs -/

/-- So many steps that go forward through instructions from `lo` on and before `hi` and write to registers at most. -/
inductive Quiet : Nat → Nat → Nat → State → State → Prop where
  | refl {lo hi : Nat} (s : State) : Quiet lo hi 0 s s
  | step {lo hi n j : Nat} {s t u : State} {i : Instr} (lower : lo ≤ j) (upper : j < hi) (pc : s.pc = addressOf j)
      (h : s.step = (t, .ok ⟨s.pc, some i, none⟩)) (writes : ∀ p, destination? s i = some p → ∃ r, p = .reg r)
      (rest : Quiet (j + 1) hi n t u) : Quiet lo hi (n + 1) s u

namespace Quiet

theorem runs (h : Quiet lo hi n s t) : Runs n s t := by
  induction h with
  | refl s => exact .refl s
  | step _ _ _ h _ _ ih => exact .step ⟨_, _, h⟩ ih

theorem mono {hi' : Nat} (h : Quiet lo hi n s t) (high : hi ≤ hi') : Quiet lo hi' n s t := by
  induction h with
  | refl s => exact .refl s
  | step lower upper pc first writes _ ih => exact .step lower (Nat.lt_of_lt_of_le upper high) pc first writes (ih high)

theorem trans {mid mid' : Nat} (h : Quiet lo mid m s t) (g : Quiet mid' hi n t u) (low : lo ≤ mid') (between : mid ≤ mid')
    (high : mid ≤ hi) : Quiet lo hi (m + n) s u := by
  induction h with
  | refl s =>
    rw [Nat.zero_add]
    cases g with
    | refl => exact .refl _
    | step lower upper pc first writes rest => exact .step (Nat.le_trans low lower) upper pc first writes rest
  | step lower upper pc first writes _ ih =>
    rw [Nat.add_right_comm]
    exact .step lower (Nat.lt_of_lt_of_le upper high) pc first writes (ih g (Nat.le_trans upper between) between high)

theorem changes (h : s.step = (t, .ok ⟨s.pc, some i, none⟩)) : ChangesOnly (destination? s i) s t := by
  cases stepped_of_eq h with
  | done _ only => exact only

/-- What a quiet run leaves as it was. -/
theorem same (h : Quiet lo hi n s t) :
    t.memory = s.memory ∧ t.sreg = s.sreg ∧ t.imageEnd = s.imageEnd ∧ t.reg .zero = s.reg .zero := by
  induction h with
  | refl s => exact ⟨rfl, rfl, rfl, rfl⟩
  | step _ _ _ h writes _ ih =>
    obtain ⟨memory, sregs, imageEnd, zero⟩ := ih
    have only := changes h
    refine ⟨memory.trans (only.memory fun a ha => ?_), sregs.trans (funext fun q => only.sregs q fun hq => ?_),
      imageEnd.trans only.imageEnd, zero.trans only.zero⟩
    · obtain ⟨_, he⟩ := writes _ ha
      cases he
    · obtain ⟨_, he⟩ := writes _ hq
      cases he

theorem memory (h : Quiet lo hi n s t) : t.memory = s.memory := h.same.1

/-- A quiet run leaves the image as it was. -/
theorem at_image {image : List Instr} {j k : Nat} (h : Quiet lo hi n s t) (hk : At image k s) (pc : t.pc = addressOf j) :
    At image j t := by
  obtain ⟨memory, -, imageEnd, zero⟩ := h.same
  exact hk.of_rest memory imageEnd pc (zero.trans hk.zero)

/-- The first steps of a quiet run, and where it is after them. -/
theorem place (h : Quiet lo hi n s t) (earlier : m < n) (first : Runs m s u) :
    ∃ j, lo + m ≤ j ∧ j < hi ∧ u.pc = addressOf j ∧ Quiet lo hi m s u := by
  induction h generalizing m with
  | refl s => cases earlier
  | @step lo hi n j s t u' i lower upper pc h writes rest ih =>
    cases first with
    | refl s => exact ⟨j, lower, upper, pc, .refl _⟩
    | @step m _ _ _ goes later =>
      obtain rfl := Goes.unique ⟨_, _, h⟩ goes
      obtain ⟨k, past, before, pc', rest'⟩ := ih (Nat.lt_of_succ_lt_succ earlier) later
      exact ⟨k, by omega, before, pc', .step lower upper pc h writes rest'⟩

end Quiet

/-- An instruction that computes is carried out quietly. -/
theorem quiet_one (h : Inside code base k s) (hi : code[k]? = some i) {regs : Reg → Word} (hr : computed? i s.reg = some regs) :
    ∃ t, Quiet (base + k) (base + (k + 1)) 1 s t ∧ Inside code base (k + 1) t ∧ t.reg = regs := by
  obtain ⟨r, w, names, step, rfl⟩ := h.step_computed hi hr
  refine ⟨_, .step (Nat.le_refl _) (Nat.lt_succ_self _) h.pc step ?_ (.refl _), h.after_set r w, State.reg_setReg _ _ _⟩
  intro p hp
  exact ⟨r, Option.some.inj (hp.symm.trans names)⟩

/-- Instructions in a row that compute are carried out quietly, one step each. -/
theorem quiet_straight {c : List Instr} (h : Inside code base k s) (hc : Lies code k c) {regs : Reg → Word}
    (hr : computedAll? c s.reg = some regs) :
    ∃ t, Quiet (base + k) (base + (k + c.length)) c.length s t ∧ Inside code base (k + c.length) t ∧ t.reg = regs := by
  induction c generalizing k s with
  | nil => exact ⟨s, .refl s, h, Option.some.inj hr⟩
  | cons i c ih =>
    obtain ⟨between, first, rest⟩ := Option.bind_eq_some_iff.1 hr
    obtain ⟨t, ht, at_t, regs_t⟩ := quiet_one h hc.head first
    obtain ⟨u, hu, at_u, regs_u⟩ := ih at_t hc.tail (by rw [regs_t]; exact rest)
    rw [Nat.add_right_comm, Nat.add_assoc] at hu at_u
    rw [List.length_cons]
    refine ⟨u, ?_, at_u, regs_u⟩
    rw [Nat.add_comm c.length 1] at hu ⊢
    exact ht.trans hu (by omega) (by omega) (by omega)

/-- A branch is carried out quietly. -/
theorem quiet_branch {test : PairTest} {a b : Reg} {offset : Int16} (h : Inside code base k s)
    (hi : code[k]? = some (.branch test a b offset))
    (hl : if test.holds (s.reg a) (s.reg b) then (l : Int) = k + offset.toInt else l = k + 1) :
    ∃ t, Quiet (base + k) (base + (k + 1)) 1 s t ∧ Inside code base l t ∧ t.reg = s.reg :=
  ⟨_, .step (Nat.le_refl _) (Nat.lt_succ_self _) h.pc (h.step_branch hi hl) (fun _ hp => nomatch hp) (.refl _), h.after_jump l, rfl⟩

/-! ## Stops -/

/-- Whether a quiet run through instructions from `lo` on and before `hi` comes to a signal there. -/
def Stops (lo hi : Nat) (s : State) (w : Word) : Prop :=
  ∃ n t j, Quiet lo hi n s t ∧ lo + n ≤ j ∧ j < hi ∧ t.pc = addressOf j ∧ Signals t w

/-- A run from where it stops is quiet, and does not leave these instructions. -/
theorem Stops.place (h : Stops lo hi s w) (g : Runs n s t) : ∃ j, lo + n ≤ j ∧ j < hi ∧ t.pc = addressOf j ∧ Quiet lo hi n s t := by
  obtain ⟨m, u, j, quiet, lower, upper, pc, signals⟩ := h
  rcases Nat.lt_or_eq_of_le (g.le_of_signals quiet.runs signals) with earlier | rfl
  · exact quiet.place earlier g
  · obtain rfl := g.unique quiet.runs
    exact ⟨j, lower, upper, pc, quiet⟩

/-- A run that comes to instruction `hi` does not stop before. -/
theorem Runs.not_stops (h : Runs n s t) (pc : t.pc = addressOf hi) (small : 4 * hi < fullSize) : ¬ Stops lo hi s w := by
  intro stops
  obtain ⟨j, -, upper, pc', -⟩ := stops.place h
  have same := congrArg UInt32.toNat (pc.symm.trans pc')
  rw [toNat_addressOf small, toNat_addressOf (by omega)] at same
  omega

end M32.Machine
