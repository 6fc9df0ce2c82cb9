/-
  The registers in use between statements.

  1. A statement that starts with only the retained registers in use ends with the same pool (`endStatement_stmtCode`), so whether
     a row of statements is compiled is decided statement by statement (`exact_stmtsCode`).
  2. In `RegPool.nested depth` the first registers that are handed out are retained.  The next condition comes into the register
     after them, and its statements start from `nested (depth + 1)` (`acquire?_nested`).
  3. `Boundary` says with which registers in use the code of statements comes to a place between two of them, and which conditions
     decide on what is ahead.
  4. `no_register_leaks` puts this together with what `RegPool` does in any pool.
-/
import M32.Proofs.Lang.Code.Distances
import M32.Proofs.Lang.Code.Tidy

namespace M32.Lang

/-! ## Rows of statements -/

/-- Whether only retained registers are in use. -/
def RegPool.Settled (p : RegPool) : Prop := p.used = p.retained

namespace RegPool.Settled

variable {p : RegPool}

theorem eq (h : p.Settled) : p = ⟨p.retained, p.retained⟩ := by
  rcases p with ⟨used, retained⟩
  cases h
  rfl

theorem sound (h : p.Settled) : p.Sound := by
  intro r hr
  rw [isUsed, show p.used = p.retained from h]
  exact hr

theorem retain (h : p.Settled) (r : Reg) : (p.retain r).Settled := by
  show p.used.set r.num.val true r.num_lt = p.retained.set r.num.val true r.num_lt
  rw [show p.used = p.retained from h]

end RegPool.Settled

section

variable {site : Site} {p q : RegPool} {s : Stmt} {a : Emitted Unit}

/-- The pool after a statement is the one before it. -/
theorem endStatement_stmtCode (h : p.Settled) (ha : stmtCode site s p = .ok a) : a.pool.endStatement = p := by
  obtain ⟨-, kept⟩ := tidy_stmtCode site s p h.sound a ha
  rw [RegPool.endStatement, kept]
  exact h.eq.symm

/-- A row of statements is compiled just if each of them is, starting from the same pool. -/
theorem exact_stmtsCode (h : p.Settled) (stmts : List Stmt) :
    (stmtsCode site stmts).Exact p (∀ s ∈ stmts, ∃ a, stmtCode (site.saying s.text) s p = .ok a) fun _ q => q = p := by
  induction stmts with
  | nil =>
    unfold stmtsCode
    exact Emit.Exact.congr (.pure rfl) (iff_of_true trivial (List.forall_mem_nil _))
  | cons s rest ih =>
    have first : (stmtCode (site.saying s.text) s).Exact p (∃ a, stmtCode (site.saying s.text) s p = .ok a)
        fun _ q => q.endStatement = p := ⟨Iff.rfl, fun _ ha => endStatement_stmtCode h ha⟩
    unfold stmtsCode
    refine (first.seq fun _ q same => ?_).congr (by rw [List.forall_mem_cons])
    have ended := Emit.Exact.registers (p := q) RegPool.endStatement
    rw [same] at ended
    exact ended.andThen ih

/-! ## Bodies of functions -/

theorem exact_bumpCode (r : Reg) (delta : Int) : (bumpCode r delta).Exact p True fun _ q => q = p := by
  rw [bumpCode]
  split
  · exact .instr _
  · exact (Emit.Exact.pseudo rfl).andThen (.instr _)

theorem exact_constCode (dst : Reg) (value : Int) : (constCode dst value).Exact p True fun _ q => q = p := by
  rw [constCode]
  split
  · exact .instr _
  · exact .pseudo rfl

/-- Two registers of a pool are permitted as operands of a loop that clears memory. -/
theorem zero_permitted {base count : Reg} (hb : base ∈ RegPool.lent) (hc : count ∈ RegPool.lent) (ne : base ≠ count) :
    (Pseudo.zero base count).fault? = none := by
  have nonzero := RegPool.ne_of_mem_lent hb RegPool.zero_notMem_lent
  have nonzero' := RegPool.ne_of_mem_lent hc RegPool.zero_notMem_lent
  simp [Pseudo.fault?, Pseudo.sameFault?, Pseudo.zeroFault?, ne, nonzero, nonzero']

/-- The start of a function is always compiled, and gives all registers back. -/
theorem exact_prologueCode : (prologueCode site).Exact {} True fun _ q => q = {} := by
  rw [prologueCode]
  split
  · split
    · exact (exact_bumpCode _ _).andThen ((Emit.Exact.pseudo rfl).andThen ((Emit.Exact.instr _).andThen (.lines _)))
    · exact .pure rfl
  · refine (Emit.Exact.instr _).andThen ?_
    rcases site.self.locals? with _ | ⟨start, length⟩
    · exact .pure rfl
    · have many : ({} : RegPool).free = 23 := by decide
      refine ((Emit.Exact.acquire site.fragment).seq (d := True) fun base q hq => ?_).congr (by rw [many]; simp)
      have left := RegPool.free_acquire hq
      refine ((Emit.Exact.acquire site.fragment).seq (d := True) fun count q' hq' => ?_).congr (by rw [and_true, iff_true]; omega)
      have taken := RegPool.Takes.of_acquire? hq
      have taken' := RegPool.Takes.of_acquire? hq'
      refine (exact_offsetCode _ _ _).andThen ((exact_constCode _ _).andThen ?_)
      refine (Emit.Exact.pseudo (zero_permitted taken.lent taken'.lent (taken.distinct taken'))).andThen ?_
      refine (Emit.Exact.registers _).mono fun _ _ same => ?_
      rw [same, taken'.pool, taken.pool]
      rfl

/-- A return without a value is always compiled. -/
theorem exact_returnCode_none : (returnCode site none).Exact p True fun _ q => q = p := by
  rw [returnCode]
  split
  · exact (Emit.Exact.instr _).andThen (.instr _)
  · exact (Emit.Exact.instr _).andThen ((exact_bumpCode _ _).andThen (.instr _))

/-- The body of a function is compiled just if each of its statements is, with no registers in use. -/
theorem exact_bodyCode (body : List Stmt) :
    (bodyCode site body).Exact {} (∀ s ∈ body, ∃ a, stmtCode (site.saying s.text) s {} = .ok a) fun _ q => q = {} := by
  have none_used : ({} : RegPool).Settled := rfl
  refine exact_prologueCode.andThen (((exact_stmtsCode none_used body).seq (d := True) ?_).congr (iff_of_eq (and_true _)))
  rintro _ _ rfl
  split
  · exact .pure rfl
  · exact exact_returnCode_none

end

/-! ## The lowest register -/

/-- Whether a register is the lowest of those that can be handed out and are not in use. -/
structure RegPool.IsLowest (p : RegPool) (r : Reg) : Prop where
  low : 1 ≤ r.num.val
  high : r.num.val ≤ 23
  unused : p.isUsed r = false
  free : p.isRetained r = false
  least : ∀ s : Reg, 1 ≤ s.num.val → s.num.val < r.num.val → p.isUsed s = true

namespace RegPool

variable {p q : RegPool} {r : Reg}

theorem pairwise_lent : lent.Pairwise fun r s => r.num.val < s.num.val := by decide

theorem isLowest_of_acquire? (h : p.Sound) (hq : p.acquire? = some (r, q)) : p.IsLowest r := by
  have taken := Takes.of_acquire? hq
  obtain ⟨low, high⟩ := mem_lent_iff.1 taken.lent
  refine ⟨low, high, taken.unused, h.not_retained taken.unused, ?_⟩
  intro s some_low less
  obtain ⟨_, found, same⟩ := Option.map_eq_some_iff.1 hq
  cases same
  obtain ⟨-, before, after, whole, passed⟩ := List.find?_eq_some_iff_append.1 found
  have lent : s ∈ before ++ r :: after := whole ▸ mem_lent_iff.2 ⟨some_low, by omega⟩
  rcases List.mem_append.1 lent with first | later
  · simpa using passed s first
  · -- registers that come later are higher
    have order := pairwise_lent
    rw [whole] at order
    rcases List.mem_cons.1 later with rfl | later
    · exact absurd less (Nat.lt_irrefl _)
    · exact absurd ((List.pairwise_cons.1 (List.pairwise_append.1 order).2.1).1 s later) (Nat.lt_asymm less)

/-- The lowest register that is left is handed out, and nothing else. -/
theorem acquire?_eq_some_iff (h : p.Sound) : p.acquire? = some (r, q) ↔ p.IsLowest r ∧ q = p.setUsed r true := by
  constructor
  · intro hq
    exact ⟨isLowest_of_acquire? h hq, (Takes.of_acquire? hq).pool⟩
  · rintro ⟨lowest, rfl⟩
    have some_left : 1 ≤ p.free := free_pos_iff.2 ⟨r, mem_lent_iff.2 ⟨lowest.low, lowest.high⟩, lowest.unused⟩
    obtain ⟨s, q, hq⟩ := acquire?_isSome_iff.2 some_left
    have other := isLowest_of_acquire? h hq
    have same : s = r := by
      rcases Nat.lt_trichotomy s.num.val r.num.val with less | equal | more
      · have used := lowest.least s other.low less
        rw [other.unused] at used
        cases used
      · exact congrArg Reg.mk (Fin.eq_of_val_eq equal)
      · have used := other.least r lowest.low more
        rw [lowest.unused] at used
        cases used
    rw [hq, (Takes.of_acquire? hq).pool, same]

end RegPool

/-! ## Pools of nested statements -/

namespace RegPool

variable {p q : RegPool} {c r : Reg} {depth : Nat}

theorem isUsed_retaining (rs : List Reg) : (p.retaining rs).isUsed r = true ↔ r ∈ rs ∨ p.isUsed r = true := by
  induction rs generalizing p with
  | nil => exact (or_iff_right List.not_mem_nil).symm
  | cons s rs ih =>
    rw [retaining, List.foldl_cons, ← retaining, ih, retain, isUsed_setRetained, isUsed_setUsed, List.mem_cons]
    by_cases same : s = r
    · simp [same]
    · simp [same, Ne.symm same]

theorem settled_nested (depth : Nat) : (nested depth).Settled := by
  have all (rs : List Reg) : ∀ p : RegPool, p.Settled → (p.retaining rs).Settled := by
    induction rs with
    | nil => exact fun p hp => hp
    | cons r rs ih => exact fun p hp => ih _ (hp.retain r)
  exact all _ {} rfl

theorem isUsed_nested : (nested depth).isUsed r = true ↔ r ∈ lent.take depth := by
  have unused : ({} : RegPool).isUsed r = false := by simp [isUsed, Vector.get]
  rw [nested, isUsed_retaining, unused, or_iff_left Bool.false_ne_true]

/-- A register that was not in use is given back with what it was retained for. -/
theorem unretain_retain (h : p.Sound) (unused : p.isUsed c = false) : (p.retain c).unretain c = p := by
  show (⟨(p.used.set c.num.val true c.num_lt).set c.num.val false c.num_lt,
    (p.retained.set c.num.val true c.num_lt).set c.num.val false c.num_lt⟩ : RegPool) = p
  rw [set_back unused, set_back (h.not_retained unused)]

theorem retain_acquired (h : p.acquire? = some (c, q)) : q.retain c = p.retain c := by
  rw [(Takes.of_acquire? h).pool]
  show (⟨(p.used.set c.num.val true c.num_lt).set c.num.val true c.num_lt, _⟩ : RegPool) = ⟨p.used.set c.num.val true c.num_lt, _⟩
  rw [Vector.set_set]
  rfl

/-- The next condition comes into the next register. -/
theorem take_acquired (h : (nested depth).acquire? = some (c, q)) : lent.take (depth + 1) = lent.take depth ++ [c] := by
  obtain ⟨_, found, same⟩ := Option.map_eq_some_iff.1 h
  cases same
  have before : (lent.take depth).find? (fun r => !(nested depth).isUsed r) = none :=
    List.find?_eq_none.2 fun r hr => by simp [isUsed_nested.2 hr]
  have whole := List.take_append_drop depth lent
  rw [← whole, List.find?_append, before, Option.none_or] at found
  rcases hd : lent.drop depth with _ | ⟨x, rest⟩
  · rw [hd] at found
    cases found
  · have apart : x ∉ lent.take depth := by
      intro hx
      have nodup := nodup_lent
      rw [← whole, hd] at nodup
      exact (List.nodup_append.1 nodup).2.2 x hx x List.mem_cons_self rfl
    have unused : (!(nested depth).isUsed x) = true := by
      rw [Bool.not_eq_true', Bool.eq_false_iff, ne_eq, isUsed_nested]
      exact apart
    rw [hd, List.find?_cons_of_pos (p := fun r => !(nested depth).isUsed r) unused] at found
    cases found
    have here : lent[depth]? = some c := by
      rw [← Nat.add_zero depth, ← List.getElem?_drop, hd]
      rfl
    rw [List.take_add_one, here]
    rfl

/-- The statements that the next condition decides on start one level deeper, and the level is left with them. -/
theorem acquire?_nested (h : (nested depth).acquire? = some (c, q)) :
    q.retain c = nested (depth + 1) ∧ (nested (depth + 1)).unretain c = nested depth := by
  have deeper : nested (depth + 1) = (nested depth).retain c := by
    rw [nested, take_acquired h, retaining, List.foldl_append]
    rfl
  rw [deeper]
  exact ⟨retain_acquired h, unretain_retain (settled_nested depth).sound (Takes.of_acquire? h).unused⟩

end RegPool

/-! ## Boundaries -/

/-- The statements that are ahead at the end of a path. -/
def stmtsAt? : List Turn → List Stmt → Option (List Stmt)
  | [], stmts => some stmts
  | turn :: path, stmts => (turn.ahead? stmts).bind (stmtsAt? path)

/-- The number of loops and branches with a condition that holds at the end of a path. -/
def nesting : List Turn → Nat
  | [] => 0
  | .body :: path => nesting path + 1
  | .next :: path | .other :: path => nesting path

/-- Whether producing the code of statements, with some registers in use, comes to a boundary: at the end of a path, with some
    statements ahead and other registers in use, inside of what the conditions in some registers decide on, the outermost first. -/
inductive Boundary (site : Site) : List Turn → List Stmt → RegPool → List Stmt → RegPool → List Reg → Prop
  | here {stmts : List Stmt} {p : RegPool} : Boundary site [] stmts p stmts p []
  | next {path : List Turn} {s : Stmt} {rest ahead : List Stmt} {p q : RegPool} {conds : List Reg} {a : Emitted Unit}
      (first : stmtCode (site.saying s.text) s p = .ok a) (later : Boundary site path rest a.pool.endStatement ahead q conds) :
      Boundary site (.next :: path) (s :: rest) p ahead q conds
  | body {path : List Turn} {s : Stmt} {rest inside ahead : List Stmt} {cond : Expr} {p q : RegPool} {conds : List Reg}
      {a : Emitted Reg} (decision : s.decision? = some (cond, inside)) (test : condCode (site.saying s.text) cond p = .ok a)
      (later : Boundary site path inside (a.pool.retain a.value) ahead q conds) :
      Boundary site (.body :: path) (s :: rest) p ahead q (a.value :: conds)
  | other {path : List Turn} {rest inside otherwise ahead : List Stmt} {cond : Expr} {p q : RegPool} {conds : List Reg}
      {a : Emitted Reg} {b : Emitted Unit} (test : condCode (site.saying (Stmt.ifElse cond inside otherwise).text) cond p = .ok a)
      (first : stmtsCode site inside (a.pool.retain a.value) = .ok b)
      (later : Boundary site path otherwise (b.pool.unretain a.value) ahead q conds) :
      Boundary site (.other :: path) (.ifElse cond inside otherwise :: rest) p ahead q conds

section

variable {site : Site} {path : List Turn} {stmts ahead : List Stmt} {p q : RegPool} {conds : List Reg} {r : Emitted Unit}
  {depth : Nat}

/-- Every boundary is come to, if the statements are compiled. -/
theorem exists_boundary (hr : stmtsCode site stmts p = .ok r) (ht : stmtsAt? path stmts = some ahead) :
    ∃ q conds, Boundary site path stmts p ahead q conds := by
  induction path generalizing stmts p r with
  | nil =>
    cases ht
    exact ⟨p, [], .here⟩
  | cons turn path ih =>
    obtain ⟨row, turned, ht⟩ := Option.bind_eq_some_iff.1 ht
    rcases stmts with _ | ⟨s, rest⟩
    · cases turn <;> cases turned
    obtain ⟨c, e, hc, he, -⟩ := stmtsCode_cons_eq_ok hr
    cases turn with
    | next =>
      cases turned
      obtain ⟨q, conds, later⟩ := ih he ht
      exact ⟨q, conds, .next hc later⟩
    | body =>
      obtain ⟨⟨cond, inside⟩, decision, rfl⟩ := Option.map_eq_some_iff.1 turned
      obtain ⟨a, b, -, -, ha, hb, -⟩ := decision_code decision hc
      rw [stmtsCode_saying] at hb
      obtain ⟨q, conds, later⟩ := ih hb ht
      exact ⟨q, a.value :: conds, .body decision ha later⟩
    | other =>
      cases s with
      | ifElse cond inside otherwise =>
        cases turned
        obtain ⟨a, b, d, -, -, ha, hb, hd, -⟩ := alternative_code hc
        rw [stmtsCode_saying] at hb hd
        obtain ⟨q, conds, later⟩ := ih hd ht
        exact ⟨q, conds, .other ha hb later⟩
      | _ => cases turned

/-- At every boundary the pool is that of its nesting, and the conditions are in the registers that are retained there besides. -/
theorem Boundary.at_nested (h : Boundary site path stmts p ahead q conds) (hp : p = .nested depth) :
    q = .nested (depth + nesting path) ∧ RegPool.lent.take (depth + nesting path) = RegPool.lent.take depth ++ conds := by
  -- on the way to the boundary: every body on it retains one register more
  induction h generalizing depth with
  | here => exact ⟨hp, (List.append_nil _).symm⟩
  | next first _ ih =>
    subst hp
    exact ih (endStatement_stmtCode (RegPool.settled_nested depth) first)
  | body decision test _ ih =>
    subst hp
    have hq := ends_condCode (RegPool.settled_nested depth).sound _ _ test
    obtain ⟨same, taken⟩ := ih (RegPool.acquire?_nested hq).1
    rw [nesting, ← Nat.add_assoc, Nat.add_right_comm]
    refine ⟨same, ?_⟩
    rw [taken, RegPool.take_acquired hq, List.append_assoc]
    rfl
  | other test first _ ih =>
    subst hp
    have hq := ends_condCode (RegPool.settled_nested depth).sound _ _ test
    obtain ⟨deeper, back⟩ := RegPool.acquire?_nested hq
    rw [deeper] at first
    have inside := (exact_stmtsCode (RegPool.settled_nested (depth + 1)) _).ends _ first
    exact ih (by rw [inside, back])

end

/-- Operations keep retained registers in use and hand out the lowest register that is left.  When a body is compiled, the
    registers in use at any boundary between statements, however deep, are those of the conditions of the loops and branches
    around it, one for each and the first that are handed out.  So a statement is compiled or not whatever stands before it. -/
theorem no_register_leaks :
    (∀ p : RegPool, p.Made → (∀ r, p.isRetained r = true → p.isUsed r = true) ∧
      ∀ r q, p.acquire? = some (r, q) ↔ p.IsLowest r ∧ q = p.setUsed r true) ∧
    ∀ (site : Site) (body : List Stmt),
      (∃ a, prologueCode site {} = .ok a ∧ a.pool = {}) ∧
      (∀ r, bodyCode site body {} = .ok r → ∀ path ahead, stmtsAt? path body = some ahead →
        ∃ q conds, Boundary site path body {} ahead q conds) ∧
      (∀ path ahead q conds, Boundary site path body {} ahead q conds →
        q.used = q.retained ∧ (∀ x, q.isRetained x = true ↔ x ∈ conds) ∧ conds.Nodup ∧ conds = RegPool.lent.take (nesting path) ∧
          q = .nested (nesting path)) ∧
      ((∃ r, bodyCode site body {} = .ok r) ↔ ∀ s ∈ body, ∃ a, stmtCode (site.saying s.text) s {} = .ok a) ∧
      ∀ depth stmts, (∃ r, stmtsCode site stmts (.nested depth) = .ok r) ↔
        ∀ s ∈ stmts, ∃ a, stmtCode (site.saying s.text) s (.nested depth) = .ok a := by
  refine ⟨fun p made => ⟨made.sound, fun r q => RegPool.acquire?_eq_some_iff made.sound⟩, ?_⟩
  intro site body
  have prologue : (prologueCode site).Exact {} True fun _ q => q = {} := exact_prologueCode
  obtain ⟨a, ha⟩ := prologue.iff.2 trivial
  have started := prologue.ends a ha
  refine ⟨⟨a, ha, started⟩, ?_, ?_, (exact_bodyCode body).iff, fun depth stmts => ?_⟩
  · intro r hr path ahead ht
    obtain ⟨a', _, ha', tail, -⟩ := (Emit.bind_eq_ok_iff _ _ _ _).1 hr
    obtain ⟨b, _, hb, -, -⟩ := (Emit.bind_eq_ok_iff _ _ _ _).1 tail
    rw [prologue.ends a' ha'] at hb
    exact exists_boundary hb ht
  · intro path ahead q conds h
    have nothing : ({} : RegPool) = .nested 0 := rfl
    obtain ⟨same, taken⟩ := h.at_nested nothing
    rw [Nat.zero_add] at same taken
    rw [List.take_zero, List.nil_append] at taken
    have settled : q.Settled := same ▸ RegPool.settled_nested _
    refine ⟨settled, fun x => ?_, ?_, taken.symm, same⟩
    · rw [RegPool.isRetained, ← show q.used = q.retained from settled, ← RegPool.isUsed, same, RegPool.isUsed_nested, taken]
    · exact taken ▸ RegPool.nodup_lent.sublist (List.take_sublist _ _)
  · exact (exact_stmtsCode (RegPool.settled_nested depth) stmts).iff

/-- With register 1 retained and register 3 given back, register 2 is handed out.  Within the branch in a loop the two conditions are in
    registers 1 and 2, and in its alternative only that of the loop is left. -/
theorem no_register_leaks_nested :
    (∃ p q : RegPool, p.Made ∧ p.isRetained ⟨1⟩ = true ∧ p.isUsed ⟨1⟩ = true ∧ p.acquire? = some (⟨2⟩, q) ∧ p.IsLowest ⟨2⟩) ∧
    ∃ r q q', bodyCode ⟨{}, bareMain, ""⟩ nestedLoops {} = .ok r ∧
      Boundary ⟨{}, bareMain, ""⟩ [.body, .body] nestedLoops {} [.return none] q [⟨1⟩, ⟨2⟩] ∧ q.used = q.retained ∧
      Boundary ⟨{}, bareMain, ""⟩ [.body, .other, .next] nestedLoops {} [.while (.bool false) []] q' [⟨1⟩] ∧ q' = .nested 1 := by
  obtain ⟨pools, bodies⟩ := no_register_leaks
  obtain ⟨-, come_to, settled, -⟩ := bodies ⟨{}, bareMain, ""⟩ nestedLoops
  constructor
  · let p : RegPool := ((({} : RegPool).retain ⟨1⟩).occupy ⟨3⟩).2.endStatement
    have made : p.Made := .endStatement (.occupy (.retain .empty ⟨1⟩) ⟨3⟩)
    have second : p.acquire? = some (⟨2⟩, p.setUsed ⟨2⟩ true) := by decide +kernel
    have retained : p.isRetained ⟨1⟩ = true := by decide +kernel
    obtain ⟨sound, lowest⟩ := pools p made
    exact ⟨p, _, made, retained, sound ⟨1⟩ retained, second, ((lowest _ _).1 second).1⟩
  · have compiled : (bodyCode ⟨{}, bareMain, ""⟩ nestedLoops {}).toOption.any (fun _ => true) = true := by decide +kernel
    obtain ⟨r, hr, -⟩ := exists_ok_of_any compiled
    obtain ⟨q, conds, inner⟩ := come_to r hr [.body, .body] _ rfl
    obtain ⟨same, -, -, rfl, -⟩ := settled _ _ _ _ inner
    obtain ⟨q', conds', alternative⟩ := come_to r hr [.body, .other, .next] _ rfl
    obtain ⟨-, -, -, rfl, nested⟩ := settled _ _ _ _ alternative
    exact ⟨r, q, q', hr, inner, same, alternative, nested⟩

end M32.Lang
