/-
  Branches lead where they should.

  1. `stmtAt?` is the statement at the end of a path into nested statements, and `Meets` says at which line its code begins and
     which registers are in use there.
  2. The code of a statement lies in that of the statements around it (`Meets.lies`), and its fault is theirs (`Meets.refused`).
  3. `Branches` says of a loop or a branch at some line that the offsets in its code are distances between lines of the whole
     code, counted in instructions.  They are wherever its code lies (`branches_of_ok`).  `Spans` are the distances that are
     measured, and the first that is too large is a fault (`Spans.refused`).
  4. `branches_measured` puts this together for all loops and branches of a function.
-/
import M32.Proofs.Lang.Code.Emitted
import M32.Proofs.Lang.Code.Inserted

namespace M32.Lang

variable {site : Site} {s t : Stmt} {stmts : List Stmt} {path : List Turn} {p q : RegPool} {k l : Nat} {r : Emitted Unit}
  {code : List Line} {cond : Expr} {inside : List Stmt} {fault : Fault}

/-! ## Statements in statements -/

namespace Stmt

/-- The condition of a loop or a branch, and the statements that are carried out if it holds. -/
def decision? : Stmt → Option (Expr × List Stmt)
  | .while cond body | .ifThen cond body | .ifElse cond body _ => some (cond, body)
  | _ => none

/-- The statements that are carried out otherwise, if there are any. -/
def alternative? : Stmt → Option (List Stmt)
  | .ifElse _ _ other => some other
  | _ => none

end Stmt

/-- A turn on the way to a statement: past the first statement, or into one of the two rows of statements in it. -/
inductive Turn where
  | next
  | body
  | other

/-- The statements that are ahead after a turn. -/
def Turn.ahead? : Turn → List Stmt → Option (List Stmt)
  | _, [] => none
  | next, _ :: rest => some rest
  | body, s :: _ => s.decision?.map Prod.snd
  | other, s :: _ => s.alternative?

/-- The statement at the end of a path. -/
def stmtAt? : List Turn → List Stmt → Option Stmt
  | [], stmts => stmts.head?
  | turn :: path, stmts => (turn.ahead? stmts).bind (stmtAt? path)

/-- Whether producing the code of statements, from line `l` on and with some registers in use, meets a statement: at the end of
    a path, with other registers in use, when the next line is line `k`. -/
inductive Meets (site : Site) : List Turn → List Stmt → RegPool → Nat → Stmt → RegPool → Nat → Prop
  | here {s : Stmt} {rest : List Stmt} {p : RegPool} {l : Nat} : Meets site [] (s :: rest) p l s p l
  | next {path : List Turn} {s t : Stmt} {rest : List Stmt} {p q : RegPool} {l k : Nat} {a : Emitted Unit}
      (first : stmtCode (site.saying s.text) s p = .ok a)
      (later : Meets site path rest a.pool.endStatement (l + a.code.length) t q k) :
      Meets site (.next :: path) (s :: rest) p l t q k
  | body {path : List Turn} {s t : Stmt} {rest inside : List Stmt} {cond : Expr} {p q : RegPool} {l k : Nat} {a : Emitted Reg}
      (decision : s.decision? = some (cond, inside)) (test : condCode (site.saying s.text) cond p = .ok a)
      (later : Meets site path inside (a.pool.retain a.value) (l + a.code.length + 1) t q k) :
      Meets site (.body :: path) (s :: rest) p l t q k
  | other {path : List Turn} {t : Stmt} {rest inside otherwise : List Stmt} {cond : Expr} {p q : RegPool} {l k : Nat}
      {a : Emitted Reg} {b : Emitted Unit} (test : condCode (site.saying (Stmt.ifElse cond inside otherwise).text) cond p = .ok a)
      (first : stmtsCode site inside (a.pool.retain a.value) = .ok b)
      (later : Meets site path otherwise (b.pool.unretain a.value) (l + a.code.length + 1 + b.code.length + 1) t q k) :
      Meets site (.other :: path) (.ifElse cond inside otherwise :: rest) p l t q k

/-! ## Code in code -/

/-- What statements are said to be does not matter to those in them. -/
theorem stmtsCode_saying (site : Site) (fragment : String) (stmts : List Stmt) :
    stmtsCode (site.saying fragment) stmts = stmtsCode site stmts := by
  induction stmts with
  | nil =>
    unfold stmtsCode; rfl
  | cons s rest ih =>
    unfold stmtsCode
    rw [ih]; rfl

theorem stmtsCode_cons_eq_ok {rest : List Stmt} (h : stmtsCode site (s :: rest) p = .ok r) :
    ∃ a b, stmtCode (site.saying s.text) s p = .ok a ∧ stmtsCode site rest a.pool.endStatement = .ok b ∧
      r.code = a.code ++ b.code := by
  unfold stmtsCode at h
  obtain ⟨a, _, ha, tail, rfl⟩ := (Emit.bind_eq_ok_iff _ _ _ _).1 h
  obtain ⟨_, b, ended, hb, rfl⟩ := (Emit.bind_eq_ok_iff _ _ _ _).1 tail
  cases (Emit.registers_eq_ok_iff _ _).1 ended
  exact ⟨a, b, ha, hb, rfl⟩

theorem stmtsCode_cons_fault {rest : List Stmt} (h : stmtCode (site.saying s.text) s p = .error fault) :
    stmtsCode site (s :: rest) p = .error fault := by
  unfold stmtsCode
  simp only [bind, h]

/-- The code of a loop or a branch begins with that of its condition, a branch and the code of the statements that it decides
    on. -/
theorem decision_code (hs : s.decision? = some (cond, inside)) (h : stmtCode site s p = .ok r) :
    ∃ a b i after, condCode site cond p = .ok a ∧ stmtsCode site inside (a.pool.retain a.value) = .ok b ∧
      r.code = a.code ++ .instr i :: (b.code ++ after) := by
  cases s with
  | «while» _ _ =>
    cases hs
    unfold stmtCode at h
    obtain ⟨a, b, ha, hb, -, -, code⟩ := whileCode_eq_ok h
    exact ⟨a, b, _, _, ha, hb, code⟩
  | ifThen _ _ =>
    cases hs
    unfold stmtCode at h
    obtain ⟨a, b, ha, hb, -, code⟩ := ifThenCode_eq_ok h
    exact ⟨a, b, _, [], ha, hb, by rw [code, List.append_nil]⟩
  | ifElse _ _ _ =>
    cases hs
    unfold stmtCode at h
    obtain ⟨a, b, d, ha, hb, -, -, -, code⟩ := ifElseCode_eq_ok h
    exact ⟨a, b, _, _, ha, hb, code⟩
  | _ => cases hs

/-- The code of the alternative comes last, after a branch of its own. -/
theorem alternative_code {otherwise : List Stmt} (h : stmtCode site (.ifElse cond inside otherwise) p = .ok r) :
    ∃ a b d i j, condCode site cond p = .ok a ∧ stmtsCode site inside (a.pool.retain a.value) = .ok b ∧
      stmtsCode site otherwise (b.pool.unretain a.value) = .ok d ∧
        r.code = a.code ++ .instr i :: (b.code ++ .instr j :: d.code) := by
  unfold stmtCode at h
  obtain ⟨a, b, d, ha, hb, hd, -, -, code⟩ := ifElseCode_eq_ok h
  exact ⟨a, b, d, _, _, ha, hb, hd, code⟩

/-- The statements that a condition decides on are refused with whatever they are in. -/
theorem decision_fault {a : Emitted Reg} (hs : s.decision? = some (cond, inside)) (ha : condCode site cond p = .ok a)
    (h : stmtsCode site inside (a.pool.retain a.value) = .error fault) : stmtCode site s p = .error fault := by
  cases s with
  | «while» _ _ =>
    cases hs
    unfold stmtCode
    rw [whileCode_eq, ha]
    show (stmtsCode site _ _ >>= _) = _
    rw [h]; rfl
  | ifThen _ _ =>
    cases hs
    unfold stmtCode
    rw [ifThenCode_eq, ha]
    show (stmtsCode site _ _ >>= _) = _
    rw [h]; rfl
  | ifElse _ _ _ =>
    cases hs
    unfold stmtCode
    rw [ifElseCode_eq, ha]
    show (stmtsCode site _ _ >>= _) = _
    rw [h]; rfl
  | _ => cases hs

namespace Meets

/-- The code of a statement lies in that of the statements around it, at the line where it is met. -/
theorem lies (h : Meets site path stmts p l t q k) (hr : stmtsCode site stmts p = .ok r) :
    ∃ b before after, stmtCode (site.saying t.text) t q = .ok b ∧ r.code = before ++ (b.code ++ after) ∧
      k = l + before.length := by
  -- on the way to the statement: what comes before it grows with every turn
  induction h generalizing r with
  | here =>
    obtain ⟨a, b, ha, -, code⟩ := stmtsCode_cons_eq_ok hr
    exact ⟨a, [], b.code, ha, code, rfl⟩
  | next first _ ih =>
    obtain ⟨a, b, ha, hb, code⟩ := stmtsCode_cons_eq_ok hr
    obtain rfl := Except.ok.inj (ha.symm.trans first)
    obtain ⟨u, before, after, hu, code', rfl⟩ := ih hb
    refine ⟨u, a.code ++ before, after, hu, by rw [code, code', List.append_assoc], ?_⟩
    rw [List.length_append, Nat.add_assoc]
  | body decision test _ ih =>
    obtain ⟨c, rest, hc, -, whole⟩ := stmtsCode_cons_eq_ok hr
    obtain ⟨a, b, i, tail, ha, hb, code⟩ := decision_code decision hc
    obtain rfl := Except.ok.inj (ha.symm.trans test)
    rw [stmtsCode_saying] at hb
    obtain ⟨u, before, after, hu, code', rfl⟩ := ih hb
    refine ⟨u, a.code ++ .instr i :: before, after ++ (tail ++ rest.code), hu, ?_, ?_⟩
    · rw [whole, code, code']
      simp only [List.append_assoc, List.cons_append]
    · rw [List.length_append, List.length_cons]; omega
  | other test first _ ih =>
    obtain ⟨c, rest, hc, -, whole⟩ := stmtsCode_cons_eq_ok hr
    obtain ⟨a, b, d, i, j, ha, hb, hd, code⟩ := alternative_code hc
    obtain rfl := Except.ok.inj (ha.symm.trans test)
    rw [stmtsCode_saying] at hb hd
    obtain rfl := Except.ok.inj (hb.symm.trans first)
    obtain ⟨u, before, after, hu, code', rfl⟩ := ih hd
    refine ⟨u, a.code ++ .instr i :: (b.code ++ .instr j :: before), after ++ rest.code, hu, ?_, ?_⟩
    · rw [whole, code, code']
      simp only [List.append_assoc, List.cons_append]
    · rw [List.length_append, List.length_cons, List.length_append, List.length_cons]; omega

/-- A statement that is met is refused with all statements around it. -/
theorem refused (h : Meets site path stmts p l t q k) (hf : stmtCode (site.saying t.text) t q = .error fault) :
    stmtsCode site stmts p = .error fault := by
  induction h with
  | here => exact stmtsCode_cons_fault hf
  | next first _ ih =>
    unfold stmtsCode
    simp only [bind, first, Emit.registers, ih hf]
  | body decision test _ ih =>
    refine stmtsCode_cons_fault (decision_fault decision test ?_)
    rw [stmtsCode_saying, ih hf]
  | other test first _ ih =>
    refine stmtsCode_cons_fault ?_
    unfold stmtCode
    rw [ifElseCode_eq, test, stmtsCode_saying, stmtsCode_saying]
    show (stmtsCode site _ _ >>= _) = _
    rw [first]
    show (stmtsCode site _ _ >>= _) = _
    rw [ih hf]; rfl

end Meets

/-- Producing the code of statements meets every statement in them, if they are not refused. -/
theorem exists_meets (hr : stmtsCode site stmts p = .ok r) (ht : stmtAt? path stmts = some t) (l : Nat) :
    ∃ q k, Meets site path stmts p l t q k := by
  induction path generalizing stmts p r l with
  | nil =>
    cases stmts with
    | nil => cases ht
    | cons s rest =>
      cases ht
      exact ⟨p, l, .here⟩
  | cons turn path ih =>
    obtain ⟨ahead, turned, ht⟩ := Option.bind_eq_some_iff.1 ht
    cases stmts with
    | nil => cases turn <;> cases turned
    | cons s rest =>
      obtain ⟨c, e, hc, he, -⟩ := stmtsCode_cons_eq_ok hr
      cases turn with
      | next =>
        cases turned
        obtain ⟨q, k, later⟩ := ih he ht (l + c.code.length)
        exact ⟨q, k, .next hc later⟩
      | body =>
        obtain ⟨⟨cond, inside⟩, decision, rfl⟩ := Option.map_eq_some_iff.1 turned
        obtain ⟨a, b, _, _, ha, hb, -⟩ := decision_code decision hc
        rw [stmtsCode_saying] at hb
        obtain ⟨q, k, later⟩ := ih hb ht (l + a.code.length + 1)
        exact ⟨q, k, .body decision ha later⟩
      | other =>
        cases s with
        | ifElse cond inside otherwise =>
          cases turned
          obtain ⟨a, b, d, _, _, ha, hb, hd, -⟩ := alternative_code hc
          rw [stmtsCode_saying] at hb hd
          obtain ⟨q, k, later⟩ := ih hd ht (l + a.code.length + 1 + b.code.length + 1)
          exact ⟨q, k, .other ha hb later⟩
        | _ => cases turned

/-! ## Positions -/

/-- The number of instructions before a line. -/
def pos (code : List Line) (k : Nat) : Nat := codeSize (code.take k)

theorem lies_append {part rest : List Line} (h : part ++ rest <+: code.drop l) :
    part <+: code.drop l ∧ rest <+: code.drop (l + part.length) := by
  obtain ⟨after, h⟩ := h
  refine ⟨⟨rest ++ after, by rw [← h, List.append_assoc]⟩, after, ?_⟩
  rw [← List.drop_drop, ← h, List.append_assoc, List.drop_left]

/-- The position after some lines. -/
theorem pos_past {part : List Line} (h : part <+: code.drop l) : pos code (l + part.length) = pos code l + codeSize part := by
  rw [pos, List.take_add, codeSize_append, ← List.prefix_iff_eq_take.1 h, pos]

/-- The position after an instruction. -/
theorem pos_instr {i : Instr} {rest : List Line} (h : .instr i :: rest <+: code.drop l) :
    pos code (l + 1) = pos code l + 1 ∧ rest <+: code.drop (l + 1) := by
  have split : [.instr i] ++ rest <+: code.drop l := h
  obtain ⟨first, later⟩ := lies_append split
  exact ⟨pos_past first, later⟩

/-- What the branches in the code of a loop or a branch lead to, if the code begins at line `l` and is produced with some
    registers in use. -/
inductive Branches (site : Site) (code : List Line) (p : RegPool) (l : Nat) : Stmt → Prop where
  /-- A loop is left for the line after the jump back, which leads to the first line of the condition. -/
  | loop {cond : Expr} {body : List Stmt} {a : Emitted Reg} {b : Emitted Unit} {out back : Int16} {k m : Nat}
      (test : condCode (site.saying (Stmt.while cond body).text) cond p = .ok a)
      (inside : stmtsCode site body (a.pool.retain a.value) = .ok b)
      (lies : a.code ++ .instr (.beq a.value .zero out) :: (b.code ++ [.instr (.beq .zero .zero back)]) <+: code.drop l)
      (branch : k = l + a.code.length) (jump : m = k + 1 + b.code.length)
      (leaves : (pos code k : Int) + out.toInt = pos code (m + 1)) (repeats : (pos code m : Int) + back.toInt = pos code l) :
      Branches site code p l (.while cond body)
  /-- A branch leads to the line after the statements that the condition decides on. -/
  | branch {cond : Expr} {body : List Stmt} {a : Emitted Reg} {b : Emitted Unit} {past : Int16} {k : Nat}
      (test : condCode (site.saying (Stmt.ifThen cond body).text) cond p = .ok a)
      (inside : stmtsCode site body (a.pool.retain a.value) = .ok b)
      (lies : a.code ++ .instr (.beq a.value .zero past) :: b.code <+: code.drop l) (branch : k = l + a.code.length)
      (skips : (pos code k : Int) + past.toInt = pos code (k + 1 + b.code.length)) : Branches site code p l (.ifThen cond body)
  /-- With an alternative, it leads to the first line of that, and a jump before it to the line after the alternative. -/
  | choice {cond : Expr} {body other : List Stmt} {a : Emitted Reg} {b d : Emitted Unit} {around past : Int16} {k m : Nat}
      (test : condCode (site.saying (Stmt.ifElse cond body other).text) cond p = .ok a)
      (inside : stmtsCode site body (a.pool.retain a.value) = .ok b)
      (otherwise : stmtsCode site other (b.pool.unretain a.value) = .ok d)
      (lies : a.code ++ .instr (.beq a.value .zero around) :: (b.code ++ .instr (.beq .zero .zero past) :: d.code) <+:
        code.drop l)
      (branch : k = l + a.code.length) (jump : m = k + 1 + b.code.length)
      (skips : (pos code k : Int) + around.toInt = pos code (m + 1))
      (passes : (pos code m : Int) + past.toInt = pos code (m + 1 + d.code.length)) :
      Branches site code p l (.ifElse cond body other)

/-- Wherever the code of a loop or a branch lies, its offsets are distances. -/
theorem branches_of_ok (hs : s.decision?.isSome) (h : stmtCode (site.saying s.text) s p = .ok r) (lies : r.code <+: code.drop l) :
    Branches site code p l s := by
  cases s with
  | «while» cond body =>
    unfold stmtCode at h
    obtain ⟨a, b, ha, hb, short, short', lines⟩ := whileCode_eq_ok h
    rw [stmtsCode_saying] at hb
    rw [lines] at lies
    obtain ⟨test, tail⟩ := lies_append lies
    obtain ⟨branch, tail⟩ := pos_instr tail
    obtain ⟨inside, tail⟩ := lies_append tail
    obtain ⟨jump, -⟩ := pos_instr tail
    have test := pos_past test
    have inside := pos_past inside
    refine .loop ha hb lies rfl rfl ?_ ?_
    · rw [Int16.toInt_ofNat_of_lt short]; omega
    · rw [toInt_neg_ofNat short']; omega
  | ifThen cond body =>
    unfold stmtCode at h
    obtain ⟨a, b, ha, hb, short, lines⟩ := ifThenCode_eq_ok h
    rw [stmtsCode_saying] at hb
    rw [lines] at lies
    obtain ⟨test, tail⟩ := lies_append lies
    obtain ⟨branch, inside⟩ := pos_instr tail
    have test := pos_past test
    have inside := pos_past inside
    refine .branch ha hb lies rfl ?_
    rw [Int16.toInt_ofNat_of_lt short]; omega
  | ifElse cond body other =>
    unfold stmtCode at h
    obtain ⟨a, b, d, ha, hb, hd, short, short', lines⟩ := ifElseCode_eq_ok h
    rw [stmtsCode_saying] at hb hd
    rw [lines] at lies
    obtain ⟨test, tail⟩ := lies_append lies
    obtain ⟨branch, tail⟩ := pos_instr tail
    obtain ⟨inside, tail⟩ := lies_append tail
    obtain ⟨jump, otherwise⟩ := pos_instr tail
    have test := pos_past test
    have inside := pos_past inside
    have otherwise := pos_past otherwise
    refine .choice ha hb hd lies rfl rfl ?_ ?_
    · rw [Int16.toInt_ofNat_of_lt short]; omega
    · rw [Int16.toInt_ofNat_of_lt short']; omega
  | _ => cases hs

/-! ## Distances that are too large -/

/-- The distances that the branches in the code of a loop or a branch have to bridge, in the order in which they are measured. -/
inductive Spans (site : Site) (p : RegPool) : Stmt → List Nat → Prop where
  | loop {cond : Expr} {body : List Stmt} {a : Emitted Reg} {b : Emitted Unit}
      (test : condCode (site.saying (Stmt.while cond body).text) cond p = .ok a)
      (inside : stmtsCode site body (a.pool.retain a.value) = .ok b) :
      Spans site p (.while cond body) [codeSize b.code + 2, codeSize a.code + codeSize b.code + 1]
  | branch {cond : Expr} {body : List Stmt} {a : Emitted Reg} {b : Emitted Unit}
      (test : condCode (site.saying (Stmt.ifThen cond body).text) cond p = .ok a)
      (inside : stmtsCode site body (a.pool.retain a.value) = .ok b) : Spans site p (.ifThen cond body) [codeSize b.code + 1]
  | choice {cond : Expr} {body other : List Stmt} {a : Emitted Reg} {b d : Emitted Unit}
      (test : condCode (site.saying (Stmt.ifElse cond body other).text) cond p = .ok a)
      (inside : stmtsCode site body (a.pool.retain a.value) = .ok b)
      (otherwise : stmtsCode site other (b.pool.unretain a.value) = .ok d) :
      Spans site p (.ifElse cond body other) [codeSize d.code + 1, codeSize b.code + 2]

theorem first_far {spans : List Nat} {m n : Nat} (h : (m :: spans).find? (branchLimit ≤ ·) = some n) :
    branchLimit ≤ m ∧ n = m ∨ m < branchLimit ∧ spans.find? (branchLimit ≤ ·) = some n := by
  rw [List.find?_cons] at h
  by_cases far : branchLimit ≤ m
  · rw [decide_eq_true far] at h
    exact .inl ⟨far, (Option.some.inj h).symm⟩
  · rw [decide_eq_false far] at h
    exact .inr ⟨Nat.lt_of_not_le far, h⟩

/-- The first distance that is too large is a fault of the statement. -/
theorem Spans.refused {spans : List Nat} {n : Nat} (h : Spans site p s spans) (far : spans.find? (branchLimit ≤ ·) = some n) :
    stmtCode (site.saying s.text) s p = .error (.branchTooFar n) := by
  cases h with
  | loop test inside =>
    unfold stmtCode
    rw [whileCode_eq, test, stmtsCode_saying]
    show (stmtsCode site _ _ >>= _) = _
    rw [inside]
    show (branchIfZero _ _ >>= _) = _
    rcases first_far far with ⟨large, rfl⟩ | ⟨fits, far⟩
    · rw [branchIfZero_eq_error large]; rfl
    · rw [branchIfZero, if_pos fits]
      show (jumpBack _ >>= _) = _
      rcases first_far far with ⟨large, rfl⟩ | ⟨_, far⟩
      · rw [jumpBack_eq_error large]; rfl
      · cases far
  | branch test inside =>
    unfold stmtCode
    rw [ifThenCode_eq, test, stmtsCode_saying]
    show (stmtsCode site _ _ >>= _) = _
    rw [inside]
    show (branchIfZero _ _ >>= _) = _
    rcases first_far far with ⟨large, rfl⟩ | ⟨_, far⟩
    · rw [branchIfZero_eq_error large]; rfl
    · cases far
  | choice test inside otherwise =>
    unfold stmtCode
    rw [ifElseCode_eq, test, stmtsCode_saying, stmtsCode_saying]
    show (stmtsCode site _ _ >>= _) = _
    rw [inside]
    show (stmtsCode site _ _ >>= _) = _
    rw [otherwise]
    show (branchIfZero _ _ >>= _) = _
    rcases first_far far with ⟨large, rfl⟩ | ⟨fits, far⟩
    · rw [branchIfZero_eq_error large]; rfl
    · rw [branchIfZero, if_pos fits]
      show (branchIfZero _ _ >>= _) = _
      rcases first_far far with ⟨large, rfl⟩ | ⟨_, far⟩
      · rw [branchIfZero_eq_error large]; rfl
      · cases far

/-! ## Functions -/

/-- Whether producing the code of a function meets a statement of its body.  Line 0 is the label. -/
def MeetsIn (scope : Scope) (self : Signature) (f : Function) (path : List Turn) (s : Stmt) (p : RegPool) (l : Nat) : Prop :=
  ∃ r, prologueCode { scope, self } {} = .ok r ∧ Meets { scope, self } path f.body r.pool (1 + r.code.length) s p l

/-- The code of a function is its label, its start, the statements of its body and a return if there is none. -/
theorem functionCode_parts {scope : Scope} {self : Signature} {f : Function} (h : functionCode scope self f = .ok code) :
    ∃ a b after, prologueCode { scope, self } {} = .ok a ∧ stmtsCode { scope, self } f.body a.pool = .ok b ∧
      code = .label self.name :: (a.code ++ (b.code ++ after)) := by
  obtain ⟨r, hr, rfl⟩ := functionCode_eq_ok h
  unfold bodyCode at hr
  obtain ⟨a, _, ha, tail, rfl⟩ := (Emit.bind_eq_ok_iff _ _ _ _).1 hr
  obtain ⟨b, e, hb, -, rfl⟩ := (Emit.bind_eq_ok_iff _ _ _ _).1 tail
  exact ⟨a, b, e.code, ha, hb, rfl⟩

/-- Branches lead where they should, at every depth.  The code of a function that is compiled is what the buffer holds when all
    branches have been inserted, and in it every loop and every branch of the body has offsets that are distances between
    lines, counted in instructions.  If the parts of a loop or a branch that is met are compiled and one of its distances does
    not fit, the function is refused, for the first such distance. -/
theorem branches_measured (scope : Scope) (self : Signature) (f : Function) :
    (∀ code, functionCode scope self f = .ok code → fillFunction scope self f = .ok (.of code) ∧
      ∀ path s, stmtAt? path f.body = some s → s.decision?.isSome →
        ∃ p l, MeetsIn scope self f path s p l ∧ Branches { scope, self } code p l s) ∧
    ∀ path s p l spans n, MeetsIn scope self f path s p l → Spans { scope, self } p s spans →
      spans.find? (branchLimit ≤ ·) = some n → functionCode scope self f = .error (.branchTooFar n) := by
  refine ⟨fun code h => ⟨by rw [fillFunction_eq, h]; rfl, fun path s hs decides => ?_⟩, ?_⟩
  · obtain ⟨a, b, after, ha, hb, rfl⟩ := functionCode_parts h
    obtain ⟨p, l, meets⟩ := exists_meets hb hs (1 + a.code.length)
    obtain ⟨u, before, between, hu, whole, rfl⟩ := meets.lies hb
    have lies : u.code <+: (.label self.name :: (a.code ++ (b.code ++ after))).drop (1 + a.code.length + before.length) := by
      rw [Nat.add_assoc, Nat.add_comm 1, List.drop_succ_cons, ← List.drop_drop, List.drop_left, whole, List.append_assoc,
        List.drop_left, List.append_assoc]
      exact List.prefix_append _ _
    exact ⟨p, _, ⟨a, ha, meets⟩, branches_of_ok decides hu lies⟩
  · rintro path s p l spans n ⟨a, ha, meets⟩ measured far
    have refused := meets.refused (measured.refused far)
    rw [functionCode, bodyCode]
    simp only [bind, ha, refused]; rfl

/-- A row of returns from the first function, two instructions each. -/
theorem stmtsCode_returns (entry : site.self.isEntry) (kept : p.endStatement = p) (n : Nat) :
    ∃ r, stmtsCode site (List.replicate n (.return none)) p = .ok r ∧ codeSize r.code = 2 * n := by
  induction n with
  | zero =>
    unfold List.replicate stmtsCode
    exact ⟨_, rfl, rfl⟩
  | succ n ih =>
    obtain ⟨r, hr, size⟩ := ih
    have one : stmtCode (site.saying (Stmt.return none).text) (.return none) p =
        .ok ⟨(), [.instr (.addi .sig .zero Signal.exit), .instr .syscall], p⟩ := by
      unfold stmtCode
      rw [returnCode, if_pos (by exact entry)]; rfl
    rw [List.replicate_succ]
    unfold stmtsCode
    simp only [bind, one, Emit.registers, kept, hr]
    refine ⟨_, rfl, ?_⟩
    simp only [codeSize_append, codeSize_cons, codeSize_nil, Line.size, size]
    omega

/-- The first function of a program, without variables. -/
def bareMain : Signature := ⟨entryName, none, {}, 0⟩

/-- A loop in the alternative of a branch in a loop. -/
def nestedLoops : List Stmt :=
  [.while (.bool true) [.ifElse (.bool true) [.return none] [.return none, .while (.bool false) []]]]

/-- The branches of the inner loop lead where they should.  A loop that is too long by one instruction is refused. -/
theorem branches_measured_nested :
    (∃ code p l, functionCode {} bareMain ⟨entryName, none, [], [], nestedLoops⟩ = .ok code ∧
      Branches ⟨{}, bareMain, ""⟩ code p l (.while (.bool false) [])) ∧
    functionCode {} bareMain ⟨entryName, none, [], [], [.while (.bool true) (List.replicate 16383 (.return none))]⟩ =
      .error (.branchTooFar 32768) := by
  refine ⟨?_, ?_⟩
  · have compiles : (functionCode {} bareMain ⟨entryName, none, [], [], nestedLoops⟩).toOption.isSome = true := by
      decide +kernel
    cases h : functionCode {} bareMain ⟨entryName, none, [], [], nestedLoops⟩ with
    | error fault => rw [h] at compiles; cases compiles
    | ok code =>
      obtain ⟨p, l, -, branches⟩ := ((branches_measured {} bareMain _).1 code h).2 [.body, .other, .next] _ rfl rfl
      exact ⟨code, p, l, rfl, branches⟩
  · -- the number of returns is kept out of all computations
    generalize hn : 16383 = n
    have test (fragment : String) : condCode (Site.saying ⟨{}, bareMain, ""⟩ fragment) (.bool true) {} =
        .ok ⟨⟨1⟩, [.pseudo (.gpr ⟨1⟩ 1 .bool)], ({} : RegPool).setUsed ⟨1⟩ true⟩ := rfl
    have entry : (Site.mk {} bareMain "").self.isEntry := rfl
    have kept : ((({} : RegPool).setUsed ⟨1⟩ true).retain ⟨1⟩).endStatement = (({} : RegPool).setUsed ⟨1⟩ true).retain ⟨1⟩ := rfl
    obtain ⟨r, inside, size⟩ := stmtsCode_returns entry kept n
    refine (branches_measured {} bareMain _).2 [] _ {} 1 _ _ ⟨⟨(), [], {}⟩, rfl, .here⟩ (.loop (test _) inside) ?_
    rw [size, ← hn]; rfl

end M32.Lang
