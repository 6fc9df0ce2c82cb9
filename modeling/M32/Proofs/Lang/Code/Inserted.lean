/-
  Branches that are inserted once it is known how far they lead.

  1. A `Buffer` is a row of lines with its size.  A line is put behind the others or inserted at an index.
  2. `fillStmts` puts the code of statements into a buffer.  It remembers how long and how large the buffer is where a branch
     is missing, goes on with the code that the branch leads past, and inserts the branch when the buffer has grown.
  3. `fillFunction_eq`: what is in the buffer in the end is the code that is put together from the code of the parts, with
     every inner branch inserted before an outer one is measured.  A fault is the same fault.
-/
import M32.Lang.Code.Program
import M32.Proofs.Lang.Code.Branches

namespace M32.Lang

/-! ## Buffers -/

/-- Lines and the number of their instructions. -/
structure Buffer where
  lines : List Line
  size : Nat

namespace Buffer

/-- A buffer with some lines in it. -/
def of (code : List Line) : Buffer := ⟨code, codeSize code⟩

/-- Puts a line behind all others. -/
def push (b : Buffer) (l : Line) : Buffer := ⟨b.lines ++ [l], b.size + l.size⟩

/-- Puts lines behind all others. -/
def pushAll (b : Buffer) (code : List Line) : Buffer := code.foldl push b

/-- Puts a line before the one at an index. -/
def insert (b : Buffer) (k : Nat) (l : Line) : Buffer := ⟨b.lines.insertIdx k l, b.size + l.size⟩

theorem push_of (code : List Line) (l : Line) : (of code).push l = of (code ++ [l]) := by
  rw [of, of, push, codeSize_append, codeSize_cons, codeSize_nil, Nat.add_zero]

theorem pushAll_of (code more : List Line) : (of code).pushAll more = of (code ++ more) := by
  induction more generalizing code with
  | nil => rw [List.append_nil]; rfl
  | cons l more ih =>
    rw [List.append_cons, ← ih, ← push_of]; rfl

theorem insertIdx_length (before after : List Line) (l : Line) :
    (before ++ after).insertIdx before.length l = before ++ l :: after := by
  induction before with
  | nil => exact List.insertIdx_zero
  | cons b before ih => rw [List.cons_append, List.length_cons, List.insertIdx_succ_cons, ih]; rfl

theorem insert_of (before after : List Line) (l : Line) :
    (of (before ++ after)).insert before.length l = of (before ++ l :: after) := by
  rw [insert, of, of, insertIdx_length, codeSize_append, codeSize_append, codeSize_cons, Nat.add_right_comm, Nat.add_assoc]

end Buffer

/-! ## Filling a buffer -/

/-- Puts code into a buffer. -/
def Fill := Buffer → RegPool → Except Fault (Buffer × RegPool)

/-- Puts a piece of code behind what is in a buffer. -/
def Emit.fill {α : Type} (x : Emit α) (b : Buffer) (p : RegPool) : Except Fault (α × Buffer × RegPool) :=
  (x p).map fun r => (r.value, b.pushAll r.code, r.pool)

/-- A piece of code without inserted branches. -/
def fillSimple (x : Emit Unit) : Fill := fun b p => do return (← x.fill b p).2

/-- One piece of code and then another. -/
def Fill.andThen (f g : Fill) : Fill := fun b p => do
  let (b, p) ← f b p
  g b p

/-- A loop. -/
def fillWhile (site : Site) (cond : Expr) (body : Fill) : Fill := fun b p => do
  let start := b.size
  let (c, b, p) ← (condCode site cond).fill b p
  let k := b.lines.length
  let condSize := b.size - start
  let (b, p) ← body b (p.retain c)
  let bodySize := b.size - start - condSize
  let b := b.insert k (.instr (← branchIfZero c (bodySize + 2)))
  let b := b.push (.instr (← jumpBack (condSize + bodySize + 1)))
  return (b, p.unretain c)

/-- A branch without an alternative. -/
def fillIfThen (site : Site) (cond : Expr) (body : Fill) : Fill := fun b p => do
  let (c, b, p) ← (condCode site cond).fill b p
  let k := b.lines.length
  let start := b.size
  let (b, p) ← body b (p.retain c)
  let b := b.insert k (.instr (← branchIfZero c (b.size - start + 1)))
  return (b, p.unretain c)

/-- A branch with an alternative.  The jump past the alternative is inserted first, behind the index of the other branch. -/
def fillIfElse (site : Site) (cond : Expr) (body other : Fill) : Fill := fun b p => do
  let (c, b, p) ← (condCode site cond).fill b p
  let k := b.lines.length
  let start := b.size
  let (b, p) ← body b (p.retain c)
  let bodySize := b.size - start
  let past := b.lines.length
  let between := b.size
  let (b, p) ← other b (p.unretain c)
  let b := b.insert past (.instr (← jumpForward (b.size - between + 1)))
  let b := b.insert k (.instr (← branchIfZero c (bodySize + 2)))
  return (b, p)

mutual

/-- Puts the code of a statement into a buffer. -/
def fillStmt (site : Site) : Stmt → Fill
  | .while cond body => fillWhile site cond (fillStmts site body)
  | .ifThen cond body => fillIfThen site cond (fillStmts site body)
  | .ifElse cond body other => fillIfElse site cond (fillStmts site body) (fillStmts site other)
  | .return value => fillSimple (stmtCode site (.return value))
  | .toGpr reg source spared => fillSimple (stmtCode site (.toGpr reg source spared))
  | .fromGpr target reg spared => fillSimple (stmtCode site (.fromGpr target reg spared))
  | .call c => fillSimple (stmtCode site (.call c))
  | .assign target source => fillSimple (stmtCode site (.assign target source))

/-- Puts the code of statements in a row into a buffer. -/
def fillStmts (site : Site) : List Stmt → Fill
  | [] => fillSimple (pure ())
  | s :: rest => (fillStmt (site.saying s.text) s).andThen
      ((fillSimple (Emit.registers RegPool.endStatement)).andThen (fillStmts site rest))

end

/-- Puts the code of the body of a function into a buffer. -/
def fillBody (site : Site) (body : List Stmt) : Fill :=
  (fillSimple (prologueCode site)).andThen ((fillStmts site body).andThen
    (if endsWithReturn body then fillSimple (pure ()) else fillSimple (returnCode site none)))

/-- Puts the code of a function into a buffer, its label first. -/
def fillFunction (scope : Scope) (self : Signature) (f : Function) : Except Fault Buffer :=
  (fillBody { scope, self } f.body ((Buffer.of []).push (.label self.name)) {}).map Prod.fst

/-! ## The same code -/

section

variable {α : Type} {x y : Emit Unit} {body other : Fill} {site : Site} {cond : Expr}

theorem fill_of (x : Emit α) (code : List Line) (p : RegPool) :
    x.fill (.of code) p = (x p).map fun r => (r.value, .of (code ++ r.code), r.pool) := by
  cases h : x p with
  | error fault => rw [Emit.fill, h]; rfl
  | ok r =>
    rw [Emit.fill, h, Except.map, Buffer.pushAll_of]; rfl

/-- Whether putting code into a buffer puts a piece of code behind what is there. -/
def Fill.Appends (f : Fill) (x : Emit Unit) : Prop :=
  ∀ code p, f (.of code) p = (x p).map fun r => (.of (code ++ r.code), r.pool)

theorem appends_simple (x : Emit Unit) : (fillSimple x).Appends x := by
  intro code p
  rw [fillSimple, fill_of]
  cases x p with
  | _ => rfl

theorem appends_andThen {f g : Fill} (hf : f.Appends x) (hg : g.Appends y) : (f.andThen g).Appends (do x; y) := by
  intro code p
  rw [Fill.andThen, hf]
  cases h : x p with
  | error fault =>
    simp only [bind, h]; rfl
  | ok a =>
    show g (.of (code ++ a.code)) a.pool = _
    rw [hg]
    simp only [bind, h]
    cases y a.pool with
    | error fault => rfl
    | ok b =>
      show Except.ok (Buffer.of (code ++ a.code ++ b.code), b.pool) = .ok (Buffer.of (code ++ (a.code ++ b.code)), b.pool)
      rw [List.append_assoc]

theorem grown (code more : List Line) : (Buffer.of (code ++ more)).size - (Buffer.of code).size = codeSize more := by
  show codeSize (code ++ more) - codeSize code = _
  rw [codeSize_append, Nat.add_sub_cancel_left]

theorem appends_while (h : body.Appends x) : (fillWhile site cond body).Appends (whileCode site cond x) := by
  intro code p
  rw [whileCode_eq, fillWhile, fill_of]
  cases condCode site cond p with
  | error fault => rfl
  | ok a =>
    show (body (.of (code ++ a.code)) (a.pool.retain a.value) >>= _) = Except.map _ (x (a.pool.retain a.value) >>= _)
    rw [h]
    cases x (a.pool.retain a.value) with
    | error fault => rfl
    | ok b =>
      have test := grown code a.code
      have inside : (Buffer.of (code ++ a.code ++ b.code)).size - (Buffer.of code).size - codeSize a.code =
          codeSize b.code := by
        rw [List.append_assoc, grown, codeSize_append, Nat.add_sub_cancel_left]
      show (branchIfZero a.value (_ + 2) >>= _) = Except.map _ (branchIfZero a.value _ >>= _)
      rw [test, inside]
      cases branchIfZero a.value (codeSize b.code + 2) with
      | error fault => rfl
      | ok out =>
        show (jumpBack _ >>= _) = Except.map _ (jumpBack _ >>= _)
        cases jumpBack (codeSize a.code + codeSize b.code + 1) with
        | error fault => rfl
        | ok back =>
          show Except.ok (((Buffer.of (code ++ a.code ++ b.code)).insert (code ++ a.code).length (.instr out)).push
            (.instr back), _) = .ok (Buffer.of (code ++ (a.code ++ .instr out :: b.code ++ [.instr back])), _)
          rw [Buffer.insert_of, Buffer.push_of]
          simp only [List.append_assoc]

theorem appends_ifThen (h : body.Appends x) : (fillIfThen site cond body).Appends (ifThenCode site cond x) := by
  intro code p
  rw [ifThenCode_eq, fillIfThen, fill_of]
  cases condCode site cond p with
  | error fault => rfl
  | ok a =>
    show (body (.of (code ++ a.code)) (a.pool.retain a.value) >>= _) = Except.map _ (x (a.pool.retain a.value) >>= _)
    rw [h]
    cases x (a.pool.retain a.value) with
    | error fault => rfl
    | ok b =>
      have inside := grown (code ++ a.code) b.code
      show (branchIfZero a.value (_ + 1) >>= _) = Except.map _ (branchIfZero a.value _ >>= _)
      rw [inside]
      cases branchIfZero a.value (codeSize b.code + 1) with
      | error fault => rfl
      | ok past =>
        show Except.ok ((Buffer.of (code ++ a.code ++ b.code)).insert (code ++ a.code).length (.instr past), _) =
          .ok (Buffer.of (code ++ (a.code ++ .instr past :: b.code)), _)
        rw [Buffer.insert_of]
        simp only [List.append_assoc]

theorem appends_ifElse (h : body.Appends x) (g : other.Appends y) :
    (fillIfElse site cond body other).Appends (ifElseCode site cond x y) := by
  intro code p
  rw [ifElseCode_eq, fillIfElse, fill_of]
  cases condCode site cond p with
  | error fault => rfl
  | ok a =>
    show (body (.of (code ++ a.code)) (a.pool.retain a.value) >>= _) = Except.map _ (x (a.pool.retain a.value) >>= _)
    rw [h]
    cases x (a.pool.retain a.value) with
    | error fault => rfl
    | ok b =>
      show (other (.of (code ++ a.code ++ b.code)) (b.pool.unretain a.value) >>= _) =
        Except.map _ (y (b.pool.unretain a.value) >>= _)
      rw [g]
      cases y (b.pool.unretain a.value) with
      | error fault => rfl
      | ok d =>
        have inside := grown (code ++ a.code) b.code
        have otherwise := grown (code ++ a.code ++ b.code) d.code
        show (jumpForward (_ + 1) >>= _) = Except.map _ (jumpForward _ >>= _)
        rw [otherwise]
        cases jumpForward (codeSize d.code + 1) with
        | error fault => rfl
        | ok past =>
          show (branchIfZero a.value (_ + 2) >>= _) = Except.map _ (branchIfZero a.value _ >>= _)
          rw [inside]
          cases branchIfZero a.value (codeSize b.code + 2) with
          | error fault => rfl
          | ok around =>
            show Except.ok (((Buffer.of (code ++ a.code ++ b.code ++ d.code)).insert (code ++ a.code ++ b.code).length
              (.instr past)).insert (code ++ a.code).length (.instr around), _) =
                .ok (Buffer.of (code ++ (a.code ++ .instr around :: b.code ++ .instr past :: d.code)), _)
            rw [Buffer.insert_of, List.append_assoc (code ++ a.code), Buffer.insert_of]
            simp only [List.append_assoc, List.cons_append]

mutual

theorem appends_stmt (site : Site) : ∀ s : Stmt, (fillStmt site s).Appends (stmtCode site s)
  | .while cond body => by
    unfold fillStmt stmtCode
    exact appends_while (appends_stmts site body)
  | .ifThen cond body => by
    unfold fillStmt stmtCode
    exact appends_ifThen (appends_stmts site body)
  | .ifElse cond body other => by
    unfold fillStmt stmtCode
    exact appends_ifElse (appends_stmts site body) (appends_stmts site other)
  | .return _ | .toGpr .. | .fromGpr .. | .call _ | .assign .. => by
    unfold fillStmt
    exact appends_simple _

theorem appends_stmts (site : Site) : ∀ stmts : List Stmt, (fillStmts site stmts).Appends (stmtsCode site stmts)
  | [] => by
    unfold fillStmts stmtsCode
    exact appends_simple _
  | s :: rest => by
    unfold fillStmts stmtsCode
    exact appends_andThen (appends_stmt _ s) (appends_andThen (appends_simple _) (appends_stmts site rest))

end

theorem appends_body (site : Site) (body : List Stmt) : (fillBody site body).Appends (bodyCode site body) := by
  refine appends_andThen (appends_simple _) (appends_andThen (appends_stmts site body) ?_)
  split
  · exact appends_simple _
  · exact appends_simple _

/-- The buffer of a function holds its code in the end. -/
theorem fillFunction_eq (scope : Scope) (self : Signature) (f : Function) :
    fillFunction scope self f = (functionCode scope self f).map .of := by
  rw [fillFunction, functionCode, Buffer.push_of, appends_body]
  cases bodyCode { scope, self } f.body {} with
  | _ => rfl

end

end M32.Lang
