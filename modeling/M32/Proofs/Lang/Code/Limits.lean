/-
  Pointers that are moved and then compared with a limit.

  1. `bumpLines` are the lines that move a pointer: by an immediate, or by way of `k0` if the distance is long.
  2. A `Guard` is a pointer with its limit, the test for it and the signal.  `Guard.lines` move the pointer first and test it
     then, and there are two guards, one for the stack and one for the heap.
  3. A call reserves the frame of the function and a link area, after its arguments have been computed and before anything is
     stored (`callCode_eq_ok`), and the first function reserves its own frame (`prologueCode_entry`).  A new object is taken from
     the heap after the heap pointer has been stored (`newCode_eq_ok`).
  4. `Guard.outcome`: wherever these lines lie, the pointer moves modulo `2^32`.  If it has crossed the limit then, the signal is
     raised, before anything is stored; if not, the next instruction follows, with the pointer where it moved.
  5. `instrsOf_allotment` are the instructions that take some bytes of the heap, one by one.
-/
import M32.Lang.Code.Stmt
import M32.Proofs.Lang.Code.Arrives
import M32.Proofs.Lang.Code.Pieces
import M32.Proofs.Machine.Quiet

namespace M32.Lang

open Machine

/-! ## Lines -/

/-- The lines that move a pointer by some bytes. -/
def bumpLines (r : Reg) (delta : Int) : List Line :=
  if fitsSigned 16 delta then [.instr (.addi r r (Int16.ofInt delta))]
  else [.pseudo (.gpr .k0 (Word.ofInt delta) .int), .instr (.addu r r .k0)]

/-- A pointer with a limit, an instruction that tests in `k0` whether the pointer has crossed the limit that `k0` holds, and the
    signal that is raised if it has. -/
structure Guard where
  pointer : Reg
  limit : Word
  test : Instr
  signal : Int16
  /-- Whether a pointer has crossed the limit. -/
  crossed : Word → Bool
  writable : pointer ≠ .zero
  plain : pointer ≠ .k0
  tests : ∀ regs, regs .k0 = limit → computed? test regs = some (setReg regs .k0 (Word.ofBool (crossed (regs pointer))))

/-- The lines that test the pointer. -/
def Guard.check (g : Guard) : List Line :=
  [.pseudo (.gpr .k0 g.limit .uint), .instr g.test, .instr (.beq .k0 .zero 3), .instr (.addi .sig .zero g.signal), .instr .syscall]

/-- The lines that move the pointer and test it. -/
def Guard.lines (g : Guard) (delta : Int) : List Line := bumpLines g.pointer delta ++ g.check

theorem Guard.label_notMem_lines (g : Guard) (delta : Int) (name : String) : .label name ∉ g.lines delta := by
  unfold lines bumpLines check
  split <;> simp

/-- The stack pointer must not be below the limit of the stack. -/
def stackGuard (map : MemoryMap) : Guard where
  pointer := .sp
  limit := map.stackLimit
  test := .sltu .k0 .sp .k0
  signal := Signal.stackLimit
  crossed w := w < map.stackLimit
  writable := by decide
  plain := by decide
  tests regs h := by rw [← h]; rfl

/-- The heap pointer must not be above the limit of the heap. -/
def heapGuard (map : MemoryMap) : Guard where
  pointer := .hp
  limit := map.heapLimit
  test := .sltu .k0 .k0 .hp
  signal := Signal.heapLimit
  crossed w := map.heapLimit < w
  writable := by decide
  plain := by decide
  tests regs h := by rw [← h]; rfl

@[simp] theorem stackGuard_pointer (map : MemoryMap) : (stackGuard map).pointer = .sp := rfl

@[simp] theorem heapGuard_pointer (map : MemoryMap) : (heapGuard map).pointer = .hp := rfl

theorem bumpCode_eq (r : Reg) (delta : Int) (p : RegPool) : bumpCode r delta p = .ok ⟨(), bumpLines r delta, p⟩ := by
  unfold bumpCode bumpLines
  split <;> rfl

theorem stackCheckCode_eq (map : MemoryMap) (p : RegPool) : stackCheckCode map p = .ok ⟨(), (stackGuard map).check, p⟩ := rfl

theorem heapCheckCode_eq (map : MemoryMap) (p : RegPool) : heapCheckCode map p = .ok ⟨(), (heapGuard map).check, p⟩ := rfl

/-! ## Where pointers are moved -/

/-- The lines that reserve some bytes of the stack. -/
def reservation (map : MemoryMap) (need : Nat) : List Line := (stackGuard map).lines (-(need : Int))

/-- The lines that take some bytes of the heap. -/
def allotment (map : MemoryMap) (size : Nat) : List Line := (heapGuard map).lines size

section

variable {site : Site} {p : RegPool} {r : Emitted Unit}

theorem reserving_eq_ok {delta : Int} {map : MemoryMap} {after : Emit Unit}
    (h : (bumpCode .sp delta >>= fun _ => stackCheckCode map >>= fun _ => after) p = .ok r) :
    ∃ rest, after p = .ok rest ∧ r.code = (stackGuard map).lines delta ++ rest.code := by
  obtain ⟨_, _, moved, h1, rfl⟩ := (Emit.bind_eq_ok_iff _ _ _ _).1 h
  obtain ⟨_, rest, checked, h2, rfl⟩ := (Emit.bind_eq_ok_iff _ _ _ _).1 h1
  obtain rfl := Except.ok.inj ((bumpCode_eq _ _ _).symm.trans moved)
  obtain rfl := Except.ok.inj ((stackCheckCode_eq _ _).symm.trans checked)
  refine ⟨rest, h2, ?_⟩
  rw [Guard.lines, List.append_assoc]; rfl

/-- A call computes its place for the result and its arguments, reserves stack, and then stores them. -/
theorem callCode_eq_ok {c : Call} {target : Option Place} (h : callCode site c target p = .ok r) :
    ∃ callee d a after, site.scope.function c.name = .ok callee ∧ destinationCode site callee target p = .ok d ∧
      argsCode site c.args callee.params d.pool = .ok a ∧
      r.code = d.code ++ (a.code ++ (reservation site.scope.map (callee.frame.size + Site.linkArea) ++
        .instr (.sw d.value .sp 0) :: after)) := by
  unfold callCode at h
  obtain ⟨_, _, hf, h1, rfl⟩ := (Emit.bind_eq_ok_iff _ _ _ _).1 h
  obtain ⟨callee, known, rfl⟩ := (Emit.ofExcept_eq_ok_iff _ _).1 hf
  split at h1
  · cases h1
  obtain ⟨d, _, hd, h2, rfl⟩ := (Emit.bind_eq_ok_iff _ _ _ _).1 h1
  split at h2
  · cases h2
  obtain ⟨a, _, ha, h3, rfl⟩ := (Emit.bind_eq_ok_iff _ _ _ _).1 h2
  obtain ⟨_, h4, code⟩ := reserving_eq_ok h3
  obtain ⟨_, rest, stored, -, rfl⟩ := (Emit.bind_eq_ok_iff _ _ _ _).1 h4
  obtain rfl := (Emit.instr_eq_ok_iff _ _).1 stored
  refine ⟨callee, d, a, rest.code, known, hd, ha, ?_⟩
  rw [code, reservation, List.nil_append, List.cons_append, List.nil_append]

/-- The first function starts by reserving its frame, if it has one. -/
theorem prologueCode_entry (entry : site.self.isEntry) (some_frame : 0 < site.self.frame.size) :
    prologueCode site p = .ok ⟨(), reservation site.scope.map site.self.frame.size, p⟩ := by
  rw [prologueCode, if_pos entry, if_pos some_frame]
  simp only [bind, bumpCode_eq, stackCheckCode_eq]; rfl

/-- A new object: the heap pointer is stored, then it moves. -/
theorem newCode_eq_ok {target : Place} {ty : Ty} (h : newCode site target ty p = .ok r) :
    ∃ size d, newSize site ty = .ok size ∧ placeCode site target p = .ok d ∧
      r.code = d.code ++ .instr (.sw .hp d.value.reg 0) :: allotment site.scope.map size := by
  unfold newCode at h
  obtain ⟨_, _, hn, h1, rfl⟩ := (Emit.bind_eq_ok_iff _ _ _ _).1 h
  obtain ⟨size, known, rfl⟩ := (Emit.ofExcept_eq_ok_iff _ _).1 hn
  obtain ⟨d, _, hd, h2, rfl⟩ := (Emit.bind_eq_ok_iff _ _ _ _).1 h1
  obtain ⟨_, _, ht, h3, rfl⟩ := (Emit.bind_eq_ok_iff _ _ _ _).1 h2
  obtain ⟨_, -, rfl⟩ := (Emit.ofExcept_eq_ok_iff _ _).1 ht
  obtain ⟨_, _, stored, h4, rfl⟩ := (Emit.bind_eq_ok_iff _ _ _ _).1 h3
  obtain rfl := (Emit.instr_eq_ok_iff _ _).1 stored
  obtain ⟨_, _, moved, checked, rfl⟩ := (Emit.bind_eq_ok_iff _ _ _ _).1 h4
  obtain rfl := Except.ok.inj ((bumpCode_eq _ _ _).symm.trans moved)
  obtain rfl := Except.ok.inj ((heapCheckCode_eq _ _).symm.trans checked)
  refine ⟨size, d, known, hd, ?_⟩
  rw [allotment, Guard.lines, heapGuard_pointer, List.nil_append, List.nil_append, List.cons_append, List.nil_append]

end

/-! ## Runs -/

variable {index : String → Nat} {code : List Instr} {base k : Nat} {s : State} {delta : Int} {g : Guard}

/-- The pointer moves modulo `2^32`. -/
theorem computedAll?_bumpLines (index : String → Nat) {r : Reg} (writable : r ≠ .zero) (plain : r ≠ .k0) (delta : Int)
    (regs : Reg → Word) :
    ∃ moved, computedAll? (instrsOf index (bumpLines r delta)) regs = some moved ∧ moved r = regs r + Word.ofInt delta ∧
      Only [r, .k0] regs moved := by
  unfold bumpLines
  split
  · next fits =>
    refine ⟨_, rfl, ?_, (Only.refl _ _).set (by simp) _⟩
    rw [setReg_self writable, Word.ofImm_ofInt fits]; rfl
  · let loaded := setReg regs .k0 (Word.ofInt delta)
    have computed : computedAll? ((Pseudo.gpr .k0 (Word.ofInt delta) .int).instrs ++ [.addu r r .k0]) regs =
        some (setReg loaded r (loaded r + loaded .k0)) := by
      rw [computedAll?_append, computedAll?_gpr]; rfl
    refine ⟨_, computed, ?_, ?_⟩
    · rw [setReg_self writable]
      show setReg regs .k0 _ r + setReg regs .k0 _ .k0 = _
      rw [setReg_of_ne plain, setReg_self (by decide)]
    · exact ((Only.refl _ _).set (by simp) _).set (by simp) _

/-- The registers after the test: `k0` says whether the pointer, where it has moved, has crossed the limit. -/
theorem Guard.computed (g : Guard) (index : String → Nat) (delta : Int) (regs : Reg → Word) :
    ∃ moved, computedAll? (instrsOf index (bumpLines g.pointer delta ++ [.pseudo (.gpr .k0 g.limit .uint), .instr g.test])) regs =
        some moved ∧ moved g.pointer = regs g.pointer + Word.ofInt delta ∧
      moved .k0 = Word.ofBool (g.crossed (moved g.pointer)) ∧ Only [g.pointer, .k0] regs moved := by
  obtain ⟨moved, computed, place, only⟩ := computedAll?_bumpLines index g.writable g.plain delta regs
  have test := g.tests (setReg moved .k0 g.limit) (setReg_self (by decide) _)
  rw [setReg_of_ne g.plain] at test
  let loaded := setReg moved .k0 g.limit
  have tested : computedAll? ((Pseudo.gpr .k0 g.limit .uint).instrs ++ [g.test]) moved =
      some (setReg loaded .k0 (Word.ofBool (g.crossed (moved g.pointer)))) := by
    rw [computedAll?_append, computedAll?_gpr]
    show (computed? g.test _).bind _ = _
    rw [test]; rfl
  have all : computedAll? (instrsOf index (bumpLines g.pointer delta ++ [.pseudo (.gpr .k0 g.limit .uint), .instr g.test])) regs =
      some (setReg loaded .k0 (Word.ofBool (g.crossed (moved g.pointer)))) := by
    have lines : instrsOf index [.pseudo (.gpr .k0 g.limit .uint), .instr g.test] =
        (Pseudo.gpr .k0 g.limit .uint).instrs ++ [g.test] := rfl
    rw [instrsOf_append, computedAll?_append, computed, lines, Option.bind_some, tested]
  have pointer : setReg loaded .k0 (Word.ofBool (g.crossed (moved g.pointer))) g.pointer = moved g.pointer := by
    rw [setReg_of_ne g.plain]
    exact setReg_of_ne g.plain _
  refine ⟨_, all, pointer.trans place, ?_, ?_⟩
  · rw [pointer, setReg_self (by decide)]
  · exact (only.set (by simp) _).set (by simp) _

/-- Wherever the lines lie: if the pointer crosses the limit when it moves modulo `2^32`, the signal is raised before anything is
    stored.  Otherwise the next instruction follows, with the pointer where it moved, and nothing else has changed but `k0`. -/
theorem Guard.outcome (g : Guard) (h : Inside code base k s) (hl : Lies code k (instrsOf index (g.lines delta))) :
    if g.crossed (s.reg g.pointer + Word.ofInt delta) then
      Stops (base + k) (base + (k + codeSize (g.lines delta))) s (Word.ofImm g.signal)
    else ∃ t, Quiet (base + k) (base + (k + codeSize (g.lines delta))) (codeSize (g.lines delta) - 2) s t ∧
      Inside code base (k + codeSize (g.lines delta)) t ∧ t.reg g.pointer = s.reg g.pointer + Word.ofInt delta ∧
      Only [g.pointer, .k0] s.reg t.reg := by
  obtain ⟨moved, computed, place, test, only⟩ := g.computed index delta s.reg
  rw [← place]
  generalize hc : instrsOf index (bumpLines g.pointer delta ++ [.pseudo (.gpr .k0 g.limit .uint), .instr g.test]) = c at computed
  have split : instrsOf index (g.lines delta) = c ++ [.beq .k0 .zero 3, .addi .sig .zero g.signal, .syscall] := by
    rw [← hc, Guard.lines, instrsOf_append, instrsOf_append, List.append_assoc]; rfl
  have size : codeSize (g.lines delta) = c.length + 3 := by
    rw [← length_instrsOf index, split, List.length_append]; rfl
  rw [split] at hl
  rw [size]
  obtain ⟨straight, rest⟩ := hl.append
  obtain ⟨t, quiet, at_t, regs⟩ := quiet_straight h straight computed
  have tested : t.reg .k0 = Word.ofBool (g.crossed (moved g.pointer)) := by rw [regs, test]
  cases crossed : g.crossed (moved g.pointer) with
  | true =>
    rw [if_pos rfl]
    obtain ⟨u, quiet', at_u, regs_u⟩ := quiet_branch (l := k + c.length + 1) at_t rest.head (by
      rw [tested, crossed, at_t.zero]; rfl)
    obtain ⟨v, quiet'', at_v, regs_v⟩ := quiet_one at_u rest.tail.head rfl
    have signal : v.reg .sig = Word.ofImm g.signal := by
      rw [regs_v, setReg_self (by decide), at_u.zero]
      exact UInt32.zero_add _
    have signalled := quiet'.trans quiet'' (by omega) (by omega) (by omega)
    have all : Quiet _ (base + (k + (c.length + 3))) _ _ _ :=
      (quiet.trans signalled (by omega) (by omega) (by omega)).mono (by omega)
    refine ⟨_, v, base + (k + c.length + 1 + 1), all, by omega, by omega, at_v.pc, ?_⟩
    refine ⟨v.advance, v.pc, some .syscall, ?_⟩
    rw [at_v.step_eq rest.tail.tail.head, State.exec, State.reg_advance, signal]
  | false =>
    rw [if_neg (by simp)]
    obtain ⟨u, quiet', at_u, regs_u⟩ := quiet_branch (l := k + c.length + 3) at_t rest.head (by
      rw [tested, crossed, at_t.zero]; rfl)
    have all : Quiet _ (base + (k + (c.length + 3))) _ _ _ :=
      (quiet.trans quiet' (by omega) (by omega) (by omega)).mono (by omega)
    refine ⟨u, all, at_u, ?_, ?_⟩
    · rw [regs_u, regs]
    · rw [regs_u, regs]
      exact only

theorem Guard.two_lt_codeSize (g : Guard) (delta : Int) : 2 < codeSize (g.lines delta) := by
  simp only [Guard.lines, Guard.check, codeSize_append, codeSize_cons, Line.size]
  omega

/-- A machine that comes to the lines stops there exactly if the pointer crosses the limit. -/
theorem Guard.comes {m : Linked} (g : Guard) (hk : At m.image k s) (hm : m.Has k (g.lines delta)) :
    (Stops k (k + codeSize (g.lines delta)) s (Word.ofImm g.signal) ↔ g.crossed (s.reg g.pointer + Word.ofInt delta)) ∧
    (¬ Stops k (k + codeSize (g.lines delta)) s (Word.ofImm g.signal) →
      ∃ t, Quiet k (k + codeSize (g.lines delta)) (codeSize (g.lines delta) - 2) s t ∧
        At m.image (k + codeSize (g.lines delta)) t ∧ t.reg g.pointer = s.reg g.pointer + Word.ofInt delta ∧
        Only [g.pointer, .k0] s.reg t.reg) := by
  have outcome := g.outcome hk.inside hm
  have length := length_instrsOf m.index (g.lines delta)
  have some_lines := g.two_lt_codeSize delta
  have last := hm.length_le (by omega)
  rw [length] at last
  have small := hk.small
  simp only [Nat.zero_add] at outcome
  cases crossed : g.crossed (s.reg g.pointer + Word.ofInt delta) with
  | true =>
    rw [crossed, if_pos rfl] at outcome
    exact ⟨iff_of_true outcome rfl, fun goes_on => absurd outcome goes_on⟩
  | false =>
    rw [crossed, if_neg (by simp)] at outcome
    obtain ⟨t, quiet, at_t, place, only⟩ := outcome
    have arrived := at_t.at_image hk quiet.same.2.2.1
    exact ⟨iff_of_false (quiet.runs.not_stops arrived.pc (by omega)) (by simp), fun _ => ⟨t, quiet, arrived, place, only⟩⟩

/-! ## Allotments as instructions -/

theorem two_lt_codeSize_allotment (map : MemoryMap) (size : Nat) : 2 < codeSize (allotment map size) :=
  (heapGuard map).two_lt_codeSize size

/-- The instructions that test the heap pointer. -/
def testHeap (map : MemoryMap) : List Instr :=
  [.lui .k0 (map.heapLimit >>> 16).toUInt16, .ori .k0 .k0 map.heapLimit.toUInt16, .sltu .k0 .k0 .hp, .beq .k0 .zero 3,
    .addi .sig .zero Signal.heapLimit, .syscall]

/-- The instructions of an allotment: one or three move the heap pointer, by a word that can be read off. -/
theorem instrsOf_allotment (index : String → Nat) (map : MemoryMap) (size : Nat) :
    (∃ imm, instrsOf index (allotment map size) = .addi .hp .hp imm :: testHeap map ∧ Word.ofImm imm = Word.ofInt size) ∨
    ∃ high low, instrsOf index (allotment map size) = .lui .k0 high :: .ori .k0 .k0 low :: .addu .hp .hp .k0 :: testHeap map ∧
      ∀ regs, computedAll? [.lui .k0 high, .ori .k0 .k0 low] regs = some (setReg regs .k0 (Word.ofInt size)) := by
  rw [allotment, Guard.lines, instrsOf_append, heapGuard_pointer, bumpLines]
  split
  · next fits => exact .inl ⟨_, rfl, Word.ofImm_ofInt fits⟩
  · exact .inr ⟨_, _, rfl, computedAll?_gpr .k0 _ .int⟩

end M32.Lang
