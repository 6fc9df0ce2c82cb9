/-
  Budgets of runs.

  A budget is used up by as many steps that end nothing, or the run stops before, and then it stops in the same way on
  every larger budget (`runs_or_stops`).  So it makes no difference how a budget is split: a run that used its part up
  goes on with the rest as if both parts had been given at once.
-/
import M32.Proofs.Machine.Effects

namespace M32.Machine

variable {s t : State} {step : Step}

/-! ## Steps that end something, and others -/

/-- A step without a halt carries an instruction out and goes on. -/
theorem goes_of_none (h : s.step = (t, .ok step)) (on : step.halt = none) : Goes s t := by
  cases stepped_of_eq h with
  | ended => cases on
  | done => exact ⟨_, _, by rw [h]; cases on; rfl⟩

/-- The limit of a run is no stop of a step. -/
theorem halt_ne_stepLimit (h : s.step = (t, .ok step)) : step.halt ≠ some .stepLimit := by
  intro limit
  cases stepped_of_eq h with
  | ended => cases limit
  | done decoded only steps halts =>
    rcases halts _ limit with own | ⟨code, own⟩ <;> cases own

theorem Goes.steps (h : Goes s t) : t.steps = s.steps + 1 := by
  obtain ⟨pc, i, h⟩ := h
  cases stepped_of_eq h with
  | done decoded only steps => exact steps

theorem Runs.steps {n : Nat} (h : Runs n s t) : t.steps = s.steps + n := by
  induction h with
  | refl s => rfl
  | step first _ ih =>
    rw [ih, first.steps]
    omega

/-! ## Budgets -/

/-- A run uses its budget up, or stops in the same way on every larger one. -/
theorem runs_or_stops (s : State) (a : Nat) :
    (∃ t, Runs a s t) ∨ ∃ t result, result ≠ .ok .stepLimit ∧ ∀ b, s.run (a + b) = (t, result) := by
  induction a generalizing s with
  | zero => exact .inl ⟨s, .refl s⟩
  | succ a ih =>
    rcases first : s.step with ⟨t, trap | step⟩
    · refine .inr ⟨t, .error trap, nofun, fun b => ?_⟩
      rw [Nat.add_right_comm, State.run_succ, first]
    · cases on : step.halt with
      | some halt =>
        refine .inr ⟨t, .ok halt, ?_, fun b => ?_⟩
        · intro limit
          cases limit
          exact halt_ne_stepLimit first on
        · rw [Nat.add_right_comm, State.run_succ, first]
          simp only [on]
      | none =>
        -- the rest of the run is that of the state after the first step
        have goes := goes_of_none first on
        rcases ih t with ⟨u, rest⟩ | ⟨u, result, ends, rest⟩
        · exact .inl ⟨u, .step goes rest⟩
        · refine .inr ⟨u, result, ends, fun b => ?_⟩
          rw [Nat.add_right_comm, State.run_goes goes, rest]

/-- How a budget is split makes no difference.  A run that uses the first part up has taken as many steps, and goes on with the
    second part to the result and the state of a run on both.  One that halts or traps within the first part does so in
    the same way on both, and ends in the same state. -/
theorem run_split (s : State) (a b : Nat) :
    ((s.run a).2 = .ok .stepLimit → (s.run a).1.steps = s.steps + a ∧ s.run (a + b) = (s.run a).1.run b) ∧
    ((s.run a).2 ≠ .ok .stepLimit → s.run (a + b) = s.run a) := by
  rcases runs_or_stops s a with ⟨t, runs⟩ | ⟨t, result, ends, same⟩
  · have used : s.run a = (t, .ok .stepLimit) := run_of_runs runs 0
    rw [used]
    exact ⟨fun _ => ⟨runs.steps, run_of_runs runs b⟩, fun other => absurd rfl other⟩
  · have stopped : s.run a = (t, result) := same 0
    rw [stopped]
    exact ⟨fun limit => absurd limit ends, fun _ => same b⟩

/-- A loop of two instructions, and a load that traps. -/
theorem run_split_loop :
    (∃ s, (State.ofSize 256).load [0x20420001, 0x1000FFFF] = .ok s ∧ (s.run 3).2 = .ok .stepLimit ∧
      (s.run 3).1.steps = s.steps + 3 ∧ s.run (3 + 4) = (s.run 3).1.run 4) ∧
    ∃ s, (State.ofSize 256).load [0x8C020002] = .ok s ∧ (s.run 1).2 ≠ .ok .stepLimit ∧ s.run (1 + 5) = s.run 1 := by
  have loop : ((State.ofSize 256).load [0x20420001, 0x1000FFFF]).toOption.any (fun s =>
      decide ((s.run 3).2.toOption = some .stepLimit)) = true := by decide +kernel
  have trap : ((State.ofSize 256).load [0x8C020002]).toOption.any (fun s =>
      decide ((s.run 1).2.toOption = none)) = true := by decide +kernel
  constructor
  · cases loaded : (State.ofSize 256).load [0x20420001, 0x1000FFFF] with
    | error e => rw [loaded] at loop; cases loop
    | ok s =>
      rw [loaded] at loop
      have limit : (s.run 3).2.toOption = some .stepLimit := of_decide_eq_true loop
      have used : (s.run 3).2 = .ok .stepLimit := by
        cases h : (s.run 3).2 with
        | error e => rw [h] at limit; cases limit
        | ok halt => rw [h] at limit; cases limit; rfl
      exact ⟨s, rfl, used, (run_split s 3 4).1 used⟩
  · cases loaded : (State.ofSize 256).load [0x8C020002] with
    | error e => rw [loaded] at trap; cases trap
    | ok s =>
      rw [loaded] at trap
      have failed : (s.run 1).2.toOption = none := of_decide_eq_true trap
      have other : (s.run 1).2 ≠ .ok .stepLimit := by
        intro limit
        rw [limit] at failed
        cases failed
      exact ⟨s, rfl, other, (run_split s 1 5).2 other⟩

end M32.Machine
