/-
  Places for results, and arguments.

  1. `leads_destinationCode` and `leads_argsCode` compute where the result of a call goes and the values of its arguments.
     They stay in registers (`Ready`).
  2. `leads_storeArgsCode`: storing them makes of memory what `Store.putVars` makes of a store.
-/
import M32.Proofs.Lang.Run.Simple

namespace M32.Lang

open Machine

variable {m : Linked} {c : Activation} {st st' : Store} {s t u : State} {a w : Word} {p q : RegPool} {site : Site}
  {exit : Nat → State → Prop}

/-! ## Types of values -/

theorem expectTy_eq_ok {expected found : Ty} (h : site.expectTy expected found = .ok ()) : expected = found := by
  unfold Site.expectTy at h
  split at h
  · assumption
  · cases h

/-- The value of an expression fills one register. -/
theorem yields_exprCode (e : Expr) : (exprCode site e).Yields fun v => v.ty.isWord = true := by
  have literal (sc : Scalar) (w : Word) : (literalCode site sc w).Yields fun v => v.ty.isWord = true :=
    .bind fun _ => .bind fun _ => .pure rfl
  cases e with
  | number value isUnsigned =>
    unfold exprCode
    exact .bind fun _ => literal _ _
  | bool value =>
    unfold exprCode
    exact literal _ _
  | char value =>
    unfold exprCode
    exact literal _ _
  | place place =>
    unfold exprCode
    refine .bind fun v => ?_
    unfold loadCode
    split
    · exact .fail
    · next word => exact .bind fun _ => .pure (by simpa using word)
  | unary op operand =>
    unfold exprCode
    refine .bind fun v => ?_
    cases op with
    | not => exact .bind_ofExcept fun _ typed => .bind fun _ => .pure (expectTy_eq_ok typed ▸ rfl)
    | neg => exact .bind_ofExcept fun _ typed => .bind fun _ => .pure (expectTy_eq_ok typed ▸ rfl)
  | binary op left right =>
    unfold exprCode
    refine .bind fun l => .bind fun r => .bind fun _ => ?_
    split
    · exact .fail
    · next takes =>
      have takes : op.takes l.ty = true := by simpa using takes
      refine .bind fun _ => .bind fun _ => .pure ?_
      cases op
      case add | sub | mul | div =>
        simp only [BinaryOp.takes, Bool.or_eq_true, decide_eq_true_eq] at takes
        rcases takes with typed | typed <;> simp [BinaryOp.resultTy, typed, Ty.isWord]
      all_goals rfl

/-! ## Places for results -/

/-- The address of the place for a result is in a register that is left alone, or register 0 stands for none. -/
theorem leads_destinationCode {callee : Signature} {target : Option Place} {result? : Option Word}
    {post : Reg → RegPool → State → Prop} (placed : c.Placed) (fits : m.Fits c.scope) (hc : site.Serves c) (hp : p.Sound)
    (h : Matches c st s) (hr : (target.mapM fun place => (place.find c st).map (·.2)) = some result?)
    (fine : ∀ r q t, q.Sound → q.Guards r → r ≠ .sp → Keeps p s t → (∀ x, p.Guards x → q.Guards x) → t.reg r = result?.getD 0 →
      post r q t) : (destinationCode site callee target).Leads m p s post exit := by
  unfold destinationCode
  cases target with
  | none =>
    cases hr
    exact .of_zero fun zero => .pure (fine _ _ _ hp p.guards_zero (by decide) (.refl p s) (fun _ hx => hx) zero)
  | some place =>
    obtain ⟨ty, a, hf, rfl⟩ : ∃ ty a, place.find c st = some (ty, a) ∧ some a = result? := by
      simpa [Option.map_eq_some_iff] using hr
    cases callee.result with
    | none => exact .fail
    | some ty' =>
      refine .seq (leads_placeCode fits.bounded hc place hp (h.sees placed fits) hf fun v q t g => ?_)
      have plain := RegPool.ne_of_mem_lent g.lent RegPool.sp_notMem_lent
      refine .seq (.ofExcept fun _ _ => .pure (fine _ _ _ (g.sound hp) g.guards plain g.keeps ?_ g.word))
      exact fun x hx => g.pool ▸ hx.setUsed v.reg

/-! ## Arguments -/

/-- Whether a register holds the value of an argument and is left alone. -/
structure Ready (q : RegPool) (t : State) (r : Reg × Nat) (a : Var × Word) : Prop where
  lent : r.1 ∈ RegPool.lent
  guards : q.Guards r.1
  offset : r.2 = a.1.offset
  word : t.reg r.1 = a.2

theorem Ready.of_regs {r : Reg × Nat} {a : Var × Word} (h : Ready q t r a)
    (kept : ∀ x ∈ RegPool.lent, q.Guards x → u.reg x = t.reg x) : Ready q u r a :=
  ⟨h.lent, h.guards, h.offset, (kept _ h.lent h.guards).trans h.word⟩

/-- The values of the arguments are in registers of their own.  Each of them fills one, and so do the parameters. -/
theorem leads_argsCode {es : List Expr} {params : List Var} {ws : List Word} {post : List (Reg × Nat) → RegPool → State → Prop}
    (placed : c.Placed) (fits : m.Fits c.scope) (hc : site.Serves c) (hp : p.Sound) (h : Matches c st s)
    (he : (es.mapM fun e => (e.eval c st).map (·.2)) = some ws) (length : es.length = params.length)
    (fine : ∀ rs q t, q.Sound → Keeps p s t → (∀ x, p.Guards x → q.Guards x) → List.Forall₂ (Ready q t) rs (params.zip ws) →
      ws.length = params.length → (∀ v ∈ params, v.ty.isWord = true) → post rs q t) : (argsCode site es params).Leads m p s post exit := by
  induction es generalizing params ws p s post with
  | nil =>
    obtain rfl : params = [] := List.length_eq_zero_iff.1 length.symm
    unfold argsCode
    obtain rfl : ws = [] := by simpa using he.symm
    exact .pure (fine _ _ _ hp (.refl p s) (fun _ hx => hx) .nil rfl fun v hv => absurd hv List.not_mem_nil)
  | cons e es ih =>
    cases params with
    | nil => cases length
    | cons param params =>
      obtain ⟨w, hw, ws', hws, rfl⟩ : ∃ w, (e.eval c st).map (·.2) = some w ∧ ∃ ws',
          (es.mapM fun e => (e.eval c st).map (·.2)) = some ws' ∧ w :: ws' = ws := by
        simpa [List.mapM_cons, Option.bind_eq_some_iff] using he
      obtain ⟨⟨ty, w⟩, hv, rfl⟩ := Option.map_eq_some_iff.1 hw
      unfold argsCode
      refine .seq (.with_value (yields_exprCode e) (leads_exprCode fits.bounded hc e hp (h.sees placed fits) hv
        fun v q t g word => ?_))
      refine .seq (.ofExcept fun _ typed => .seq (ih (g.sound hp) (h.keeps g.keeps) hws (Nat.succ.inj length) ?_))
      intro rs q' u sound keeps more ready length words
      have more' (x : Reg) (hx : p.Guards x) : q.Guards x := g.pool ▸ hx.setUsed v.reg
      refine .pure (fine _ _ _ sound ?_ (fun x hx => more x (more' x hx)) ?_ (congrArg Nat.succ length) ?_)
      · exact g.keeps.trans ((g.pool ▸ keeps : Keeps (p.setUsed v.reg true) t u).of_setUsed)
      · rw [List.zip_cons_cons]
        refine .cons ?_ ready
        exact ⟨g.lent, more _ g.guards, rfl, (keeps.regs _ g.guards).trans g.word⟩
      · intro u hu
        rcases List.mem_cons.1 hu with rfl | hu
        · exact expectTy_eq_ok typed ▸ word
        · exact words u hu

/-! ## Storing arguments -/

/-- Stored variables hide what was there before. -/
theorem Store.putVars_congr {vars : List (Var × Word)} {start a : Word} {st st' : Store}
    (h : (∀ v ∈ vars, start + UInt32.ofNat v.1.offset ≠ a) → st.word a = st'.word a) :
    (st.putVars start vars).word a = (st'.putVars start vars).word a := by
  induction vars generalizing st st' with
  | nil => exact h fun v hv => absurd hv List.not_mem_nil
  | cons v vars ih =>
    refine ih fun others => ?_
    rw [Store.word_put, Store.word_put]
    by_cases here : a = start + UInt32.ofNat v.1.offset
    · rw [if_pos here, if_pos here]
    · rw [if_neg here, if_neg here]
      refine h fun u hu => ?_
      rcases List.mem_cons.1 hu with rfl | hu
      · exact Ne.symm here
      · exact others u hu

/-- A word that no variable fills is not changed by stored variables. -/
theorem Store.putVars_of_ne {vars : List (Var × Word)} {start a : Word} {st : Store}
    (h : ∀ v ∈ vars, start + UInt32.ofNat v.1.offset ≠ a) : (st.putVars start vars).word a = st.word a := by
  induction vars generalizing st with
  | nil => rfl
  | cons v vars ih =>
    show ((st.put (start + UInt32.ofNat v.1.offset) v.2).putVars start vars).word a = _
    rw [ih fun u hu => h u (List.mem_cons_of_mem _ hu), Store.word_put, if_neg (h v List.mem_cons_self).symm]

/-- Memory as a store. -/
def memoryOf (s : State) : Store := ⟨s.memory.read, 0⟩

/-- The arguments of a call are stored above the link area. -/
theorem leads_storeArgsCode {rs : List (Reg × Nat)} {vars : List (Var × Word)} {start : Word}
    {post : Unit → RegPool → State → Prop} (ready : List.Forall₂ (Ready q s) rs vars)
    (hstart : s.reg .sp + UInt32.ofNat Site.linkArea = start)
    (inside : ∀ v ∈ vars, CanAccess s (start + UInt32.ofNat v.1.offset) ∧
      4 * m.image.length ≤ (start + UInt32.ofNat v.1.offset).toNat)
    (fine : ∀ t : State, Only [.k1] s.reg t.reg → t.memory.size = s.memory.size →
      (∀ a : Word, a.toNat % 4 = 0 → t.memory.read a = ((memoryOf s).putVars start vars).word a) → post () p t) :
    (storeArgsCode rs).Leads m p s post exit := by
  -- on the arguments that are left: a store spoils at most `k1`, so they are still in their registers (`Ready`)
  induction rs generalizing vars s with
  | nil =>
    cases ready
    exact .pure (fine s (Only.refl _ _) rfl fun a _ => rfl)
  | cons r rs ih =>
    obtain ⟨v, vars, first, rest, rfl⟩ := List.forall₂_cons_left_iff.1 ready
    obtain ⟨access, behind⟩ := inside v List.mem_cons_self
    have plain : r.1 ≠ .k1 := by
      intro he
      exact not_guards_scratch q .k1 (by simp [scratch]) (he ▸ first.guards)
    have address : s.reg .sp + Word.ofInt ((Site.linkArea + r.2 : Nat) : Int) = start + UInt32.ofNat v.1.offset := by
      rw [Word.ofInt_natCast, UInt32.ofNat_add, ← UInt32.add_assoc, hstart, first.offset]
    refine .forM_cons (leads_storeCode (by decide) plain address access behind fun t memory only => ?_)
    rw [first.word] at memory
    have kept (x : Reg) (hx : q.Guards x) : t.reg x = s.reg x := only x fun hm => by
      rw [List.mem_singleton.1 hm] at hx
      exact not_guards_scratch q .k1 (by simp [scratch]) hx
    have size : t.memory.size = s.memory.size := by rw [memory, Memory.size_write]
    have ready : List.Forall₂ (Ready q t) rs vars := rest.imp fun r' v' h => h.of_regs fun x _ hx => kept x hx
    refine ih ready ?_ ?_ ?_
    · rw [kept .sp q.guards_sp, hstart]
    · intro u hu
      rw [CanAccess, size]
      exact inside u (List.mem_cons_of_mem _ hu)
    · intro u only' size' words
      refine fine u (only.trans only') (size'.trans size) fun a ha => ?_
      rw [words a ha]
      refine Store.putVars_congr fun _ => ?_
      rw [Store.word_put]
      show t.memory.read a = if a = _ then _ else s.memory.read a
      rw [memory, Memory.read_write _ access.1 ha]
      by_cases here : start + UInt32.ofNat v.1.offset = a
      · rw [if_pos here, if_pos here.symm]
      · rw [if_neg here, if_neg (Ne.symm here)]

end M32.Lang
