/-
  Compiled programs run as they mean.

  1. `leads_entryCode`: code for the body of the first function leaves the program as the program ends.
  2. A program never comes back from its first function (`runStmts_ne_back`), so it ends with a signal, runs out of fuel or
     does something without a meaning.
  3. `built_runs`: the machine that loads the words of a program ends as the program does (`EndsAs`).
-/
import M32.Proofs.Lang.Code.Images
import M32.Proofs.Lang.Run.Statements
import M32.Proofs.Machine.Loading

namespace M32.Lang

open Machine

variable {m : Linked} {scope : Scope} {self : Signature} {program : Program} {c : Activation} {st st' : Store} {s t u : State}
  {fuel : Nat} {body : List Stmt} {o : Outcome}

/-! ## The first function -/

/-- Whether a machine is at the start of the first function. -/
structure Starts (m : Linked) (scope : Scope) (s : State) : Prop where
  sp : s.reg .sp = scope.map.stackTop
  bp : s.reg .bp = scope.map.globalBase
  hp : s.reg .hp = scope.map.heapBase
  blank : ∀ a : Word, a.toNat % 4 = 0 → 4 * m.image.length ≤ a.toNat → s.memory.read a = 0
  size : scope.map.stackTop.toNat ≤ s.memory.size

theorem aligned_of_fault?_eq_none {map : MemoryMap} (h : map.fault? = none) :
    map.heapBase.toNat % 4 = 0 ∧ map.stackTop.toNat % 4 = 0 := by
  unfold MemoryMap.fault? at h
  split at h
  · cases h
  next all =>
  simp only [Bool.not_eq_true] at all
  simp only [List.any_cons, List.any_nil, Bool.or_eq_false_iff, Bool.not_eq_false', MemoryMap.isAligned, beq_iff_eq] at all
  exact ⟨mod_four_iff.1 all.2.1, mod_four_iff.1 all.2.2.2.1⟩

section

variable (entry : self.isEntry = true) (room : self.frame.size ≤ scope.map.stackTop.toNat)

variable (scope) in
include entry room in
theorem Scope.toNat_entry : (scope.entry self).sp.toNat = scope.map.stackTop.toNat - self.frame.size ∧
    (scope.entry self).start = (scope.entry self).sp := by
  have top := scope.map.stackTop.toNat_lt
  have small : (UInt32.ofNat self.frame.size).toNat = self.frame.size := by
    rw [UInt32.toNat_ofNat']
    exact Nat.mod_eq_of_lt (by omega)
  constructor
  · show (scope.map.stackTop - UInt32.ofNat self.frame.size).toNat = _
    rw [UInt32.toNat_sub_of_le _ _ (UInt32.le_iff_toNat_le.2 (by rw [small]; exact room)), small]
  · rw [Activation.start, show (scope.entry self).self = self from rfl, entry]; rfl

include entry room

theorem Scope.placed_entry (fits : m.Fits scope) (framed : self.Framed) (low : ¬ (scope.entry self).sp < scope.map.stackLimit) :
    (scope.entry self).Placed := by
  obtain ⟨sp, start⟩ := Scope.toNat_entry scope entry room
  obtain ⟨-, aligned⟩ := aligned_of_fault?_eq_none fits.map
  have whole := framed.aligned
  refine ⟨by omega, UInt32.le_iff_toNat_le.1 (UInt32.not_lt.1 low), ?_, fun b hb => ?_⟩
  · rw [start, show (scope.entry self).self = self from rfl, entry]; rfl
  · rw [List.mem_singleton.1 hb]
    show (scope.entry self).start.toNat ≤ (scope.entry self).start.toNat ∧
      (scope.entry self).start.toNat + self.frame.size ≤ scope.map.stackTop.toNat
    rw [start]
    omega

/-- The first function starts with zeros wherever it reaches. -/
theorem Starts.matches (h : Starts m scope s) (fits : m.Fits scope) (framed : self.Framed)
    (low : ¬ (scope.entry self).sp < scope.map.stackLimit) (memory : t.memory = s.memory)
    (sp : t.reg .sp = (scope.entry self).sp) (bp : t.reg .bp = s.reg .bp) (hp : t.reg .hp = s.reg .hp) :
    Matches (scope.entry self) scope.emptyStore t := by
  have placed := Scope.placed_entry entry room fits framed low
  obtain ⟨base, limit, stack, top⟩ := fits.ordered
  obtain ⟨aligned, -⟩ := aligned_of_fault?_eq_none fits.map
  have image := fits.image
  have lowest : scope.map.stackLimit.toNat ≤ (scope.entry self).sp.toNat := placed.low
  obtain ⟨-, start⟩ := Scope.toNat_entry scope entry room
  have zero {a : Word} (ha : a.toNat % 4 = 0) (behind : scope.map.globalBase.toNat ≤ a.toNat) : t.memory.read a = 0 := by
    rw [memory]
    exact h.blank a ha (by omega)
  refine ⟨⟨fun a ha => ?_, aligned, Nat.le_refl _, limit, fun a ha first _ => ?_, ?_⟩, sp, bp.trans h.bp, hp.trans h.hp⟩
  · have low : scope.map.heapBase.toNat ≤ scope.emptyStore.next.toNat := Nat.le_refl _
    obtain ⟨alignedA, region⟩ := placed.region fits low ha
    rw [start] at region
    refine zero alignedA ?_
    rcases region with ⟨first, -⟩ | ⟨first, -⟩
    · exact first
    · omega
  · have first : scope.map.heapBase.toNat ≤ a.toNat := first
    exact zero ha (by omega)
  · rw [memory]
    exact h.size

end

/-! ## How programs end -/

theorem Outcome.andThen_ne_back {f : Store → Outcome} (h : ∀ st, o ≠ .back st) (hf : ∀ st, f st ≠ .back st') :
    o.andThen f ≠ .back st' := by
  cases o with
  | next st => exact hf st
  | back st => exact absurd rfl (h st)
  | _ => exact nofun

theorem Outcome.returned_ne_back : o.returned ≠ .back st' := by
  cases o with
  | _ => exact nofun

theorem Activation.call_ne_back {run : Activation → Store → List Stmt → Outcome} {callee : Call} {target : Option Place} :
    c.call program run st callee target ≠ .back st' := by
  unfold Activation.call
  refine Outcome.given_ne nofun fun self => Outcome.given_ne nofun fun f => Outcome.given_ne nofun fun result? =>
    Outcome.given_ne nofun fun args => ?_
  split
  · exact nofun
  · dsimp only
    split
    · exact nofun
    · exact Outcome.returned_ne_back

theorem Activation.create_ne_back {target : Place} {ty : Ty} : c.create st target ty ≠ .back st' := by
  cases ty with
  | pointer elem =>
    refine Outcome.given_ne nofun fun size => Outcome.given_ne nofun fun dst => Outcome.given_ne nofun fun st => ?_
    dsimp only
    split
    · exact nofun
    · split
      · exact nofun
      · exact nofun
  | _ => exact nofun

/-- The first function does not go back to a caller. -/
theorem runStmts_ne_back (entry : c.self.isEntry = true) : runStmts program fuel c st body ≠ .back st' := by
  induction fuel generalizing st st' body with
  | zero => exact nofun
  | succ fuel ih =>
    cases body with
    | nil => exact nofun
    | cons stmt rest =>
      refine Outcome.andThen_ne_back (fun st' => ?_) fun st => ih
      cases stmt with
      | «while» cond body =>
        refine Outcome.given_ne nofun fun v => ?_
        split
        · exact nofun
        · exact Outcome.andThen_ne_back (fun st => ih) fun st => ih
      | ifThen cond body =>
        refine Outcome.given_ne nofun fun v => ?_
        split
        · exact nofun
        · exact ih
      | ifElse cond body other =>
        refine Outcome.given_ne nofun fun v => ?_
        split <;> exact ih
      | «return» value =>
        show c.leave st value ≠ _
        unfold Activation.leave
        rw [if_pos entry]
        cases value with
        | none => exact nofun
        | some e => exact Outcome.given_ne nofun fun v => nofun
      | toGpr reg source spared => exact nofun
      | fromGpr target reg spared => exact nofun
      | call callee => exact Activation.call_ne_back
      | assign target source =>
        cases source with
        | call callee => exact Activation.call_ne_back
        | new ty => exact Activation.create_ne_back
        | expr e => exact Outcome.given_ne nofun fun v => Outcome.given_ne nofun fun d => Outcome.given_ne nofun fun st => nofun

/-- What holds of the state in which code for a program ends, if the program comes to an outcome. -/
def Ends (scope : Scope) (self : Signature) (fuel : Nat) (o : Outcome) (steps : Nat) (t : State) : Prop :=
  match o with
  | .stop code st => Halts t code ∧ ∀ a, (scope.entry self).reaches st a = true → scope.map.globalBase ≤ a →
      t.memory.read a = st.word a
  | .timeout => fuel ≤ steps
  | .stuck => True
  | .next _ | .back _ => False

/-- What a program comes to whose first function has room for its frame. -/
def entryOutcome (scope : Scope) (self : Signature) (program : Program) (fuel : Nat) (body : List Stmt) : Outcome :=
  if (scope.entry self).sp < scope.map.stackLimit then .stop (Word.ofImm Signal.stackLimit) scope.emptyStore
  else (runStmts program fuel (scope.entry self) scope.emptyStore body).andThen fun st => .stop (Word.ofImm Signal.exit) st

/-- Code for the statements of the first function leaves the program as the program ends.  Where the statements come to
    their end, a `return` follows unless they end with one. -/
theorem leads_entryStmtsCode {q : RegPool} (fits : m.Fits scope) (compiled : m.Compiled scope program) (framed : self.Framed)
    (entry : self.isEntry = true) (room : self.frame.size ≤ scope.map.stackTop.toNat) (sound : q.Sound)
    (low : ¬ (scope.entry self).sp < scope.map.stackLimit) (ht : Matches (scope.entry self) scope.emptyStore t) :
    Emit.Leads m (stmtsCode { scope, self } body >>= fun _ =>
      if endsWithReturn body then pure () else returnCode { scope, self } none) q t (fun _ _ _ => False)
      (Ends scope self fuel (entryOutcome scope self program fuel body)) := by
  have placed := Scope.placed_entry entry room fits framed low
  have inner (other : (scope.entry self).self.isEntry = false) : False := by
    rw [show (scope.entry self).self = self from rfl, entry] at other
    cases other
  unfold entryOutcome
  rw [if_neg low]
  refine .seq (.mono (carried fits compiled fuel (scope.entry self) 0 scope.emptyStore t q { scope, self } body rfl placed
    ⟨rfl, rfl⟩ sound ht fun other => (inner other).elim) ?_ ?_)
  · rintro - q' u ⟨st', came, hu, spares⟩
    refine .ite (fun ends => absurd came (runStmts_ne_next ends)) fun _ => ?_
    have leaves : Carries m (scope.entry self) 0 (returnCode { scope, self } none) q' u fuel ((scope.entry self).leave st' none) :=
      carries_returnCode_none placed rfl hu fun other => (inner other).elim
    have stop : (scope.entry self).leave st' none = .stop (Word.ofImm Signal.exit) st' := if_pos entry
    rw [stop] at leaves
    refine .mono leaves (fun _ _ _ never => ?_) fun j x left => ?_
    · obtain ⟨_, never, _⟩ := never
      cases never
    · rw [came]
      exact ⟨left.1, fun a ha _ => left.2 a ha⟩
  · intro j u left
    cases ho : runStmts program fuel (scope.entry self) scope.emptyStore body with
    | next st =>
      rw [ho] at left
      exact left.elim
    | back st => exact absurd ho (runStmts_ne_back entry)
    | stop code st =>
      rw [ho] at left
      exact ⟨left.1, fun a ha _ => left.2 a ha⟩
    | timeout =>
      rw [ho] at left
      exact left
    | stuck => trivial

/-- Code for the body of the first function leaves the program as the program ends. -/
theorem leads_entryCode (fits : m.Fits scope) (compiled : m.Compiled scope program) (framed : self.Framed)
    (entry : self.isEntry = true) (room : self.frame.size ≤ scope.map.stackTop.toNat) (h : Starts m scope s) :
    (bodyCode { scope, self } body).Leads m {} s (fun _ _ _ => False)
      (Ends scope self fuel (entryOutcome scope self program fuel body)) := by
  have spOf : (scope.entry self).sp = scope.map.stackTop - UInt32.ofNat self.frame.size := rfl
  refine .seq ?_
  unfold prologueCode
  rw [if_pos entry]
  refine .ite (fun some_frame => ?_) fun no_frame => ?_
  · refine .seq (leads_bumpCode (by decide) (by decide) fun t memory only moved => ?_)
    have sp : t.reg .sp = (scope.entry self).sp := by
      rw [moved, h.sp, Word.ofInt_neg, Word.ofInt_natCast, ← UInt32.sub_eq_add_neg]; rfl
    refine leads_stackCheckCode (fun crossed u memory' halts => ?_) fun low u memory' only' => ?_
    · rw [sp] at crossed
      unfold entryOutcome
      rw [if_pos crossed]
      refine ⟨halts, fun a ha behind => ?_⟩
      have image := fits.image
      rw [memory', memory]
      exact h.blank a (reaches_iff.1 ha).1 (Nat.le_trans image (UInt32.le_iff_toNat_le.1 behind))
    · rw [sp] at low
      refine leads_entryStmtsCode fits compiled framed entry room RegPool.sound_empty low
        (h.matches entry room fits framed low (memory'.trans memory) ?_ ?_ ?_)
      · rw [only' .sp (by decide), sp]
      · rw [only' .bp (by decide), only .bp (by decide)]
      · rw [only' .hp (by decide), only .hp (by decide)]
  · have none_left : self.frame.size = 0 := Nat.eq_zero_of_not_pos no_frame
    have sp : (scope.entry self).sp = scope.map.stackTop := by
      rw [spOf, none_left]
      exact UInt32.sub_zero _
    have low : ¬ (scope.entry self).sp < scope.map.stackLimit := by
      obtain ⟨-, -, -, top⟩ := fits.ordered
      rw [sp, UInt32.lt_iff_toNat_lt]
      omega
    refine .pure (leads_entryStmtsCode fits compiled framed entry room RegPool.sound_empty low
      (h.matches entry room fits framed low rfl ?_ rfl rfl))
    rw [sp, h.sp]

/-! ## Whole programs -/

/-- Whether the runs of a machine end as a program does that comes to an outcome: with the same signal, and with the same
    words wherever the program reaches.  A program that uses up some fuel takes as many steps at least. -/
def EndsAs (c : Activation) (fuel : Nat) (s : State) : Outcome → Prop
  | .stop code st => ∃ n, ∀ budget, n ≤ budget → ∃ t, s.run budget = (t, .ok (.signal code)) ∧
      ∀ a, c.reaches st a = true → c.scope.map.globalBase ≤ a → t.memory.read a = st.word a
  | .timeout => ∀ budget, budget ≤ fuel → (s.run budget).2 = .ok .stepLimit
  | .stuck => True
  | .next _ | .back _ => False

theorem Ends.endsAs {n j : Nat} (h : Ends scope self fuel o j t) (runs : Runs n s t) (late : j ≤ n) :
    EndsAs (scope.entry self) fuel s o := by
  cases o with
  | next st => exact h
  | back st => exact h
  | stop code st =>
    obtain ⟨⟨pc, i?, u, hu, memory⟩, words⟩ := h
    refine ⟨n + 1, fun budget enough => ⟨u, ?_, fun a ha behind => ?_⟩⟩
    · obtain ⟨more, rfl⟩ : ∃ more, budget = n + (more + 1) := ⟨budget - (n + 1), by omega⟩
      rw [run_of_runs runs, State.run_halt hu]
    · rw [memory]
      exact words a ha behind
  | timeout =>
    have enough : fuel ≤ j := h
    exact fun budget hb => run_stepLimit_of_runs runs (by omega)
  | stuck => trivial

/-- The code at the start of a program sets the base registers and goes to the first function. -/
theorem starts_startCode {s : State} (hk : At m.image 0 s) (code : m.Has 0 (startCode scope.map))
    (blank : ∀ a : Word, a.toNat % 4 = 0 → 4 * m.image.length ≤ a.toNat → s.memory.read a = 0)
    (size : scope.map.stackTop.toNat ≤ s.memory.size) :
    ∃ n t, Runs n s t ∧ At m.image (m.index entryName) t ∧ Starts m scope t := by
  obtain ⟨first, code⟩ := code.cons
  obtain ⟨second, code⟩ := code.cons
  obtain ⟨third, code⟩ := code.cons
  have first : Lies m.image 0 (Pseudo.gpr .bp scope.map.globalBase .uint).instrs := first
  have second : Lies m.image 2 (Pseudo.gpr .sp scope.map.stackTop .uint).instrs := second
  have third : Lies m.image 4 (Pseudo.gpr .hp scope.map.heapBase .uint).instrs := third
  obtain ⟨t1, h1, r1⟩ := computes_gpr hk first
  obtain ⟨t2, h2, r2⟩ := computes_gpr h1.at_end second
  obtain ⟨t3, h3, r3⟩ := computes_gpr h2.at_end third
  obtain ⟨t4, h4, r4⟩ := computes_jump h3.at_end code.cons.1.head
  have all := h1.trans (h2.trans (h3.trans h4))
  obtain ⟨n, runs⟩ := all.runs
  refine ⟨n, t4, runs, h4.at_end, ?_, ?_, ?_, by rw [all.memory]; exact blank, by rw [all.memory]; exact size⟩
  · rw [r4, r3, setReg_of_ne (by decide), r2, setReg_self (by decide)]
  · rw [r4, r3, setReg_of_ne (by decide), r2, setReg_of_ne (by decide), r1, setReg_self (by decide)]
  · rw [r4, r3, setReg_self (by decide)]

/-- The machine that loads the words of a program ends as the program does.  Nothing is said of an execution that has no meaning, which
    comes to `Outcome.stuck`: one whose stack pointer or heap pointer would leave the range of 32 bits is left out that way, and so
    is one that reads or stores a word out of its reach or copies from or to a register. -/
theorem built_runs {file : String} {cs : List Char} {map : MemoryMap} {asm : String} {words : List Word} {p : Program}
    {scope : Scope} (h : build file cs map = .ok (asm, words)) (valid : map.fault? = none)
    (hp : readProgram file cs = .ok p) (hs : Scope.ofProgram map p = .ok scope)
    (names : ∀ f ∈ p.functions, Literal.read? f.name.toList = none) (image : 4 * words.length ≤ map.globalBase.toNat)
    (globals : map.globalBase.toNat + (scope.globals?.getD {}).size ≤ map.heapBase.toNat) {size : Nat}
    (memory : map.stackTop.toNat ≤ size) :
    ∃ s main, (State.ofSize size).load words = .ok s ∧ scope.function? entryName = some main ∧
      ∀ fuel, EndsAs (scope.entry main) fuel s (p.outcome scope fuel) := by
  obtain ⟨code, placed, hc, ha, -, hw⟩ := build_eq_ok_iff.1 h
  obtain ⟨p', scope', hp', hs', hcode⟩ := compileLines_eq_ok hc
  obtain rfl : p' = p := Except.ok.inj (hp'.symm.trans hp)
  obtain rfl : scope' = scope := Except.ok.inj (hs'.symm.trans hs)
  obtain ⟨collected, found⟩ := collected_of_ofProgram hs
  obtain ⟨-, labels⟩ := written_programCode hs hcode
  have onMap : scope'.map = map := collected.map
  have length : words.length = codeSize code := by
    rw [hw, List.length_map]
    exact length_of_assembled hc ha
  have encoded : words = (placed.map (·.instr)).map Instr.encode := by
    rw [hw, List.map_map]; rfl
  have base := map.globalBase.toNat_lt
  obtain ⟨instrs, legal, places⟩ := image_of_assembled hc ha (fun name hn => by
    rw [labels] at hn
    obtain ⟨f, hf, rfl⟩ := List.mem_map.1 hn
    exact Line.index?_eq_none_iff.2 (names f hf)) (by omega)
  let m : Linked := ⟨instrsOf (labelIndex code) code, labelIndex code⟩
  have sized : m.image.length = codeSize code := length_instrsOf _ code
  have compiled : m.Compiled scope' p' := fun name self f hself hf => function_of_programCode hcode rfl places hself hf
  obtain ⟨pieces, -, split⟩ := programCode_eq_ok hcode
  have start : m.Has 0 (startCode scope'.map) := by
    refine has_split (a := []) (c := pieces.flatten) ?_
    rw [List.nil_append, ← split]
  have some_code : 0 < codeSize code := by
    rw [split, codeSize_append]
    exact Nat.add_pos_left (Nat.succ_pos _) _
  have fits : m.Fits scope' := {
    bounded := collected.bounded
    aligned := collected.aligned
    framed := collected.framed
    map := by rw [onMap]; exact valid
    some_code := by rw [sized]; exact some_code
    image := by rw [sized, onMap, ← length]; exact image
    globals := by rw [onMap]; exact globals }
  obtain ⟨-, limit, stack, top⟩ := fits.ordered
  rw [onMap] at limit stack top
  obtain ⟨s, loaded, hk, sizeS, blank⟩ := holds_load size (by omega : 4 * m.image.length ≤ size)
    (by show _ < 0x100000000; omega) legal
  obtain ⟨main, hmain⟩ := Option.isSome_iff_exists.1 found
  refine ⟨s, main, by rw [encoded, instrs]; exact loaded, hmain, fun fuel => ?_⟩
  have named : main.name = entryName := by simpa using List.find?_some hmain
  have entry : main.isEntry = true := decide_eq_true named
  obtain ⟨f, hf⟩ : ∃ f, p'.functions.find? (·.name = entryName) = some f := by
    have mem := Scope.function?_isSome_iff.1 found
    rw [collected.names] at mem
    obtain ⟨f, hf, he⟩ := List.mem_map.1 mem
    exact Option.isSome_iff_exists.1 (List.find?_isSome.2 ⟨f, hf, decide_eq_true he⟩)
  unfold Program.outcome
  rw [hmain, hf]
  show EndsAs _ fuel s (if scope'.map.stackTop.toNat < main.frame.size then .stuck
    else entryOutcome scope' main p' fuel f.body)
  by_cases room : scope'.map.stackTop.toNat < main.frame.size
  · rw [if_pos room]
    trivial
  rw [if_neg room]
  obtain ⟨n, t, runs, at_main, starts⟩ := starts_startCode hk start blank (by rw [onMap, sizeS]; exact memory)
  obtain ⟨r, hr, has⟩ := compiled _ _ _ hmain hf
  have framed := collected.framed main (List.mem_of_find?_eq_some hmain)
  rcases leads_entryCode fits compiled framed entry (Nat.le_of_not_lt room) starts r _ hr (named ▸ at_main) has with
    ⟨_, _, _, _, never⟩ | ⟨n', j, u, runs', late, ends⟩
  · exact never.elim
  · exact ends.endsAs (runs.trans runs') (by omega)

/-- The signal and the store of a program that ends. -/
def Outcome.stopped? : Outcome → Option (Word × Store)
  | .stop code st => some (code, st)
  | _ => none

theorem Outcome.stopped?_eq_some_iff {r : Word × Store} : o.stopped? = some r ↔ o = .stop r.1 r.2 := by
  constructor
  · intro h
    cases o with
    | stop code st => cases h; rfl
    | _ => cases h
  · rintro rfl
    rfl

/-- A factorial by recursion. -/
def factorialText : String :=
  "int r; int fact(int n) { int sub; if n < 2 { return 1 } sub = fact(n - 1); return n * sub } void main() { r = fact(5) }"

/-- The factorial ends well in the machine, with the product where the program keeps it. -/
theorem built_runs_factorial :
    ∃ asm words p scope s, build "f" factorialText.toList {} = .ok (asm, words) ∧
      readProgram "f" factorialText.toList = .ok p ∧ Scope.ofProgram {} p = .ok scope ∧
      (State.ofSize fullSize).load words = .ok s ∧ ∃ n, ∀ budget, n ≤ budget →
        ∃ t, s.run budget = (t, .ok (.signal 1)) ∧ t.memory.read 0x10000 = 120 := by
  have compiled : (compileLines "f" factorialText.toList {}).toOption.any (fun code =>
      code.all (fun l => decide l.IsReadable) && decide (codeSize code = 79)) = true := by decide +kernel
  have meant : (readProgram "f" factorialText.toList).toOption.any (fun p => (Scope.ofProgram {} p).toOption.any fun scope =>
      p.functions.all (fun f => decide (Literal.read? f.name.toList = none)) &&
        decide (0x10000 + (scope.globals?.getD {}).size ≤ 0x100000) &&
        (scope.function? entryName).any fun main => (p.outcome scope 40).stopped?.any fun r =>
          decide (r.1 = 1) && decide (r.2.word 0x10000 = 120) && (scope.entry main).reaches r.2 0x10000) = true := by
    decide +kernel
  cases hc : compileLines "f" factorialText.toList {} with
  | error e => rw [hc] at compiled; cases compiled
  | ok code =>
    rw [hc] at compiled
    simp only [Except.toOption, Option.any_some, Bool.and_eq_true, List.all_eq_true, decide_eq_true_eq] at compiled
    obtain ⟨readable, length⟩ := compiled
    obtain ⟨placed, ha⟩ := assemble_compiled hc readable (by rw [length]; decide)
    obtain ⟨p, scope, hp, hs, -⟩ := compileLines_eq_ok hc
    rw [hp] at meant
    simp only [Except.toOption, Option.any_some, hs, Bool.and_eq_true, List.all_eq_true, decide_eq_true_eq,
      Option.any_eq_true] at meant
    obtain ⟨⟨names, globals⟩, main, ho, r, hr, ⟨signal, product⟩, reached⟩ := meant
    have built := build_eq_ok_iff.2 ⟨code, placed, hc, ha, rfl, rfl⟩
    have words : (placed.map Assembly.Placed.word).length = 79 := by
      rw [List.length_map, length_of_assembled hc ha, length]
    have memory : ({} : MemoryMap).stackTop.toNat ≤ fullSize := by decide
    obtain ⟨s, main', loaded, hmain, ends⟩ :=
      built_runs built (by decide) hp hs names (by rw [words]; decide) globals memory
    obtain rfl : main' = main := Option.some.inj (hmain.symm.trans ho)
    have finished := ends 40
    rw [Outcome.stopped?_eq_some_iff.1 hr, signal] at finished
    obtain ⟨n, runs⟩ := finished
    refine ⟨_, _, p, scope, s, built, hp, hs, loaded, n, fun budget enough => ?_⟩
    obtain ⟨t, ran, kept⟩ := runs budget enough
    have below : scope.map.globalBase ≤ 0x10000 := by
      rw [(collected_of_ofProgram hs).1.map]
      decide
    exact ⟨t, ran, (kept 0x10000 reached below).trans product⟩

end M32.Lang
