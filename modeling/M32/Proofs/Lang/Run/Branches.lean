/-
  Loops and branches.

  1. `Matches.decision`: the code of a condition and the branch after it lead to one of two places.
  2. `carries_whileCode`, `carries_ifThenCode` and `carries_ifElseCode`: if code for rows of statements does what they do with
     some fuel, then the code does what the loop or the branch does with one more.  The jump back of a loop leads to the
     same code again, as that of a row with nothing but the loop.
-/
import M32.Proofs.Lang.Code.Branches
import M32.Proofs.Lang.Run.Calls

namespace M32.Lang

open Machine

variable {m : Linked} {c : Activation} {st : Store} {s t u : State} {p : RegPool} {site : Site} {cond : Expr} {ret fuel k l : Nat}
  {program : Program} {o : Outcome}

/-! ## Branches -/

theorem holds_eq_iff {v w : Word} : PairTest.eq.holds v w = true ↔ v = w := beq_iff_eq

/-- A jump leaves all but the place as it was. -/
theorem Matches.jump {offset : Int16} (h : Matches c st s) (hk : At m.image k s)
    (hi : m.image[k]? = some (.beq .zero .zero offset)) (hl : (l : Int) = k + offset.toInt) :
    ∃ n t, Runs n s t ∧ At m.image l t ∧ Matches c st t ∧ Spares c s t := by
  obtain ⟨t, ht, regs⟩ := computes_branch hk hi (l := l) (by rwa [if_pos (holds_eq_iff.2 rfl)])
  obtain ⟨n, runs⟩ := ht.runs
  exact ⟨n, t, runs, ht.at_end, ⟨h.toShows.of_memory ht.memory, by rw [regs, h.sp], by rw [regs, h.bp], by rw [regs, h.hp]⟩,
    .of_memory ht.memory⟩

/-- The code of a condition and the branch after it lead to the instruction after the branch, or past some instructions if
    the condition is zero. -/
theorem Matches.decision {ty : Ty} {w : Word} {a : Emitted Reg} {skip : Nat} {rest : List Line} (h : Matches c st s)
    (placed : c.Placed) (fits : m.Fits c.scope) (hc : site.Serves c) (hp : p.Sound) (hv : cond.eval c st = some (ty, w))
    (ha : condCode site cond p = .ok a) (hk : At m.image k s)
    (code : m.Has k (a.code ++ .instr (.beq a.value .zero (Int16.ofNat skip)) :: rest)) (small : skip < branchLimit)
    (some_skip : 0 < skip) (inside : skip ≤ codeSize rest + 1) :
    ∃ n t, Runs n s t ∧ 0 < n ∧ At m.image (k + codeSize a.code + if w = 0 then skip else 1) t ∧ Matches c st t ∧
      Spares c s t ∧ a.pool.Sound := by
  obtain ⟨test, tail⟩ := code.append
  have condition : (condCode site cond).Leads m p s (fun r q t => q.Sound ∧ Matches c st t ∧ Spares c s t ∧ t.reg r = w)
      fun _ _ => False :=
    .seq (leads_exprCode fits.bounded hc cond hp (h.sees placed fits) hv fun v q t g => .seq (.ofExcept fun _ _ =>
      .pure ⟨g.sound hp, h.keeps g.keeps, .of_memory g.keeps.memory, g.word⟩))
  rcases condition a k ha hk test with ⟨n, t, runs, at_t, sound, ht, spares, word⟩ | ⟨_, _, _, _, _, never⟩
  · obtain ⟨u, hu, regs⟩ := computes_branch at_t tail.cons.1.head
      (l := k + codeSize a.code + if w = 0 then skip else 1) (by
        rw [word, at_t.zero]
        by_cases zero : w = 0
        · rw [if_pos zero, if_pos (holds_eq_iff.2 zero), Int16.toInt_ofNat_of_lt small, Int.natCast_add]
        · rw [if_neg zero, if_neg fun he => zero (holds_eq_iff.1 he)])
    obtain ⟨n', runs'⟩ := hu.runs
    have both := runs.trans runs'
    have length := length_instrsOf m.index (.instr (.beq a.value .zero (Int16.ofNat skip)) :: rest)
    have last := Lies.length_le tail (by rw [length, codeSize_cons, Line.size]; omega)
    rw [length, codeSize_cons, Line.size] at last
    have ahead : 0 < if w = 0 then skip else 1 := by split <;> omega
    have within : (if w = 0 then skip else 1) ≤ codeSize rest + 1 := by split <;> omega
    refine ⟨n + n', u, both, both.pos_of_ne hk hu.at_end (by omega) (by omega), hu.at_end, ?_, ?_, sound⟩
    · exact ⟨ht.toShows.of_memory hu.memory, by rw [regs, ht.sp], by rw [regs, ht.bp], by rw [regs, ht.hp]⟩
    · exact spares.trans (.of_memory hu.memory)
  · exact never.elim

/-! ## Outcomes along a run -/

/-- Whether a machine carries out what comes to an outcome, and comes to an instruction at its end. -/
def Comes (m : Linked) (c : Activation) (ret : Nat) (s : State) (l fuel : Nat) (o : Outcome) : Prop :=
  (∃ n t, Runs n s t ∧ At m.image l t ∧ ∃ st, o = .next st ∧ Matches c st t ∧ Spares c s t) ∨
    ∃ n j t, Runs n s t ∧ j ≤ n ∧ Exits m c ret s fuel o j t

theorem Outcome.andThen_next : o.andThen .next = o := by
  cases o with
  | _ => rfl

/-- What leaves the code of a part leaves the code of the whole. -/
theorem Exits.andThen {f : Store → Outcome} {j : Nat} (h : Exits m c ret s fuel o j t) :
    Exits m c ret s fuel (o.andThen f) j t := by
  cases o with
  | next st => exact h.elim
  | _ => exact h

namespace Comes

variable {n fuel' : Nat}

theorem next (hl : At m.image l s) (h : Matches c st s) : Comes m c ret s l fuel (.next st) :=
  .inl ⟨0, s, .refl s, hl, st, rfl, h, .of_memory rfl⟩

/-- Steps before it make up for fuel. -/
theorem after (h : Comes m c ret t l fuel o) (runs : Runs n s t) (spares : Spares c s t) (more : fuel' ≤ fuel + n) :
    Comes m c ret s l fuel' o := by
  rcases h with ⟨n', u, runs', at_u, st, came, hu, spares'⟩ | ⟨n', j, u, runs', late, left⟩
  · exact .inl ⟨n + n', u, runs.trans runs', at_u, st, came, hu, spares.trans spares'⟩
  · exact .inr ⟨n + n', n + j, u, runs.trans runs', by omega, left.earlier spares (by omega)⟩

theorem andThen {f : Store → Outcome} (h : Comes m c ret s k fuel o)
    (rest : ∀ st t, At m.image k t → Matches c st t → Spares c s t → Comes m c ret t l fuel (f st)) :
    Comes m c ret s l fuel (o.andThen f) := by
  rcases h with ⟨n, t, runs, at_t, st, rfl, ht, spares⟩ | ⟨n, j, t, runs, late, left⟩
  · exact (rest st t at_t ht spares).after runs spares (Nat.le_add_right _ _)
  · exact .inr ⟨n, j, t, runs, late, left.andThen⟩

end Comes

/-! ## Loops and branches -/

section

variable {body other : List Stmt}

theorem linked_after (links : c.self.isEntry = false → Links c ret s) (placed : c.Placed) (spares : Spares c s t) :
    c.self.isEntry = false → Links c ret t := fun inner => (links inner).spares placed inner spares

theorem carries_ifThenCode (placed : c.Placed) (fits : m.Fits c.scope) (hc : site.Serves c) (hp : p.Sound) (h : Matches c st s)
    (links : c.self.isEntry = false → Links c ret s) (rows : Carried m c.scope program fuel) :
    Carries m c ret (ifThenCode site cond (stmtsCode site body)) p s (fuel + 1)
      ((Stmt.ifThen cond body).exec program (runStmts program fuel) c st) := by
  refine .given fun (ty, w) hv => ?_
  intro r k hr hk code
  obtain ⟨a, b, ha, hb, small, he⟩ := ifThenCode_eq_ok hr
  rw [he] at code ⊢
  obtain ⟨n, t, runs, pos, at_t, ht, spares, sound⟩ :=
    h.decision placed fits hc hp hv ha hk code small (Nat.succ_pos _) (Nat.le_refl _)
  have inside := code.append.2.cons.2
  simp only [codeSize_append, codeSize_cons, Line.size, ← Nat.add_assoc] at inside ⊢
  suffices rest : Comes m c ret t (k + codeSize a.code + 1 + codeSize b.code) fuel
      (if w = 0 then .next st else runStmts program fuel c st body) from rest.after runs spares (by omega)
  by_cases zero : w = 0
  · rw [if_pos zero] at at_t ⊢
    exact .next (by rwa [Nat.add_assoc, Nat.add_comm 1]) ht
  · rw [if_neg zero] at at_t ⊢
    exact rows c ret st t _ site body rfl placed hc (sound.retain _) ht (linked_after links placed spares) b _ hb at_t inside

/-- The pool after rows of statements is sound. -/
theorem sound_stmtsCode {stmts : List Stmt} {r : Emitted Unit} (hr : stmtsCode site stmts p = .ok r) (hp : p.Sound) :
    r.pool.Sound := by
  induction stmts generalizing p r with
  | nil =>
    unfold stmtsCode at hr
    cases (Emit.pure_eq_ok_iff () r).1 hr
    exact hp
  | cons stmt rest ih =>
    unfold stmtsCode at hr
    obtain ⟨a, b, -, hb, rfl⟩ := (Emit.bind_eq_ok_iff _ _ p r).1 hr
    obtain ⟨d, e, hd, he, rfl⟩ := (Emit.bind_eq_ok_iff _ _ a.pool b).1 hb
    cases (Emit.registers_eq_ok_iff _ d).1 hd
    exact ih (r := e) he (RegPool.sound_endStatement _)

theorem carries_ifElseCode (placed : c.Placed) (fits : m.Fits c.scope) (hc : site.Serves c) (hp : p.Sound) (h : Matches c st s)
    (links : c.self.isEntry = false → Links c ret s) (rows : Carried m c.scope program fuel) :
    Carries m c ret (ifElseCode site cond (stmtsCode site body) (stmtsCode site other)) p s (fuel + 1)
      ((Stmt.ifElse cond body other).exec program (runStmts program fuel) c st) := by
  refine .given fun (ty, w) hv => ?_
  intro r k hr hk code
  obtain ⟨a, b, d, ha, hb, hd, small, small', he⟩ := ifElseCode_eq_ok hr
  rw [he] at code ⊢
  obtain ⟨n, t, runs, pos, at_t, ht, spares, sound⟩ := h.decision placed fits hc hp hv ha hk code small (Nat.succ_pos _) (by
    simp only [codeSize_append, codeSize_cons, Line.size]
    omega)
  obtain ⟨inside, past⟩ := code.append.2.cons.2.append
  simp only [codeSize_append, codeSize_cons, Line.size, ← Nat.add_assoc] at inside past ⊢
  have otherwise := past.cons.2
  suffices rest : Comes m c ret t (k + codeSize a.code + 1 + codeSize b.code + 1 + codeSize d.code) fuel
      (if w = 0 then runStmts program fuel c st other else runStmts program fuel c st body) from
    rest.after runs spares (by omega)
  have links := linked_after links placed spares
  by_cases zero : w = 0
  · rw [if_pos zero] at at_t ⊢
    have place : k + codeSize a.code + (codeSize b.code + 2) = k + codeSize a.code + 1 + codeSize b.code + 1 := by omega
    rw [place] at at_t
    exact rows c ret st t _ site other rfl placed hc ((sound_stmtsCode hb (sound.retain _)).unretain _) ht links d _ hd at_t otherwise
  · rw [if_neg zero] at at_t ⊢
    rw [← Outcome.andThen_next (o := runStmts program fuel c st body)]
    refine Comes.andThen (rows c ret st t _ site body rfl placed hc (sound.retain _) ht links b _ hb at_t inside) ?_
    intro st' u at_u hu _
    obtain ⟨n', x, runs', at_x, hx, spares'⟩ := hu.jump
      (l := k + codeSize a.code + 1 + codeSize b.code + 1 + codeSize d.code) at_u past.cons.1.head
      (by rw [Int16.toInt_ofNat_of_lt small']; omega)
    exact Comes.after (.next at_x hx) runs' spares' (Nat.le_add_right _ _)

/-- The code of a loop is that of a row with nothing but the loop. -/
theorem stmtsCode_while {r : Emitted Unit} (again : site.saying (Stmt.while cond body).text = site)
    (hr : whileCode site cond (stmtsCode site body) p = .ok r) :
    ∃ q, stmtsCode site [.while cond body] p = .ok ⟨(), r.code, q⟩ := by
  refine ⟨r.pool.endStatement, ?_⟩
  unfold stmtsCode
  rw [again]
  refine (Emit.bind_eq_ok_iff _ _ p _).2 ⟨r, ⟨(), [], r.pool.endStatement⟩, ?_, ?_, by rw [List.append_nil]⟩
  · unfold stmtCode
    exact hr
  · refine (Emit.bind_eq_ok_iff _ _ _ _).2 ⟨⟨(), [], r.pool.endStatement⟩, ⟨(), [], r.pool.endStatement⟩, rfl, ?_, rfl⟩
    unfold stmtsCode
    rfl

theorem carries_whileCode (placed : c.Placed) (fits : m.Fits c.scope) (hc : site.Serves c) (hp : p.Sound) (h : Matches c st s)
    (links : c.self.isEntry = false → Links c ret s) (rows : Carried m c.scope program fuel)
    (again : site.saying (Stmt.while cond body).text = site) :
    Carries m c ret (whileCode site cond (stmtsCode site body)) p s (fuel + 1)
      ((Stmt.while cond body).exec program (runStmts program fuel) c st) := by
  refine .given fun (ty, w) hv => ?_
  intro r k hr hk code
  obtain ⟨q, loop⟩ := stmtsCode_while again hr
  have whole := code
  obtain ⟨a, b, ha, hb, small, small', he⟩ := whileCode_eq_ok hr
  have length : codeSize r.code = codeSize a.code + 1 + codeSize b.code + 1 := by
    rw [he]
    simp only [codeSize_append, codeSize_cons, codeSize_nil, Line.size]
    omega
  rw [he] at code
  obtain ⟨n, t, runs, pos, at_t, ht, spares, sound⟩ := h.decision placed fits hc hp hv ha hk code small (Nat.succ_pos _) (by
    simp only [codeSize_append, codeSize_cons, codeSize_nil, Line.size]
    omega)
  obtain ⟨inside, back⟩ := code.append.2.cons.2.append
  simp only [Line.size] at inside back
  suffices rest : Comes m c ret t (k + codeSize r.code) fuel (if w = 0 then .next st
      else (runStmts program fuel c st body).andThen fun st => runStmts program fuel c st [.while cond body]) from
    rest.after runs spares (by omega)
  have links := linked_after links placed spares
  by_cases zero : w = 0
  · rw [if_pos zero] at at_t ⊢
    refine .next ?_ ht
    have place : k + codeSize a.code + (codeSize b.code + 2) = k + codeSize r.code := by omega
    rwa [place] at at_t
  · rw [if_neg zero] at at_t ⊢
    refine Comes.andThen (rows c ret st t _ site body rfl placed hc (sound.retain _) ht links b _ hb at_t inside) ?_
    intro st' u at_u hu spares'
    obtain ⟨n', x, runs', at_x, hx, spares''⟩ := hu.jump (l := k) at_u back.cons.1.head
      (by rw [toInt_neg_ofNat small']; omega)
    have links := linked_after (linked_after links placed spares') placed spares''
    have looped := rows c ret st' x p site [.while cond body] rfl placed hc hp hx links ⟨(), r.code, q⟩ k loop at_x whole
    exact Comes.after looped runs' spares'' (Nat.le_add_right _ _)

end

end M32.Lang
