/-
  Calls.

  1. The frame of a called function ends where that of its caller starts (`Activation.toNat_callee`), so all that the caller
     knows and all that lies above is left alone.
  2. `called_of_stored`: stored arguments make a machine at the start of a function.  Each kind of words has its own lemma:
     where the result goes, the arguments, the locals, and all that was there before.
  3. `carries_callCode`: code for a call does what the call does, if code for the statements of all functions does what
     they do.
-/
import M32.Proofs.Lang.Run.Entering

namespace M32.Lang

open Machine

variable {m : Linked} {c : Activation} {self : Signature} {result? : Option Word} {ret fuel k j : Nat} {st st' : Store}
  {r s t u : State} {p : RegPool} {site : Site} {a : Word} {o : Outcome}

/-! ## Frames of functions that are called -/

section

variable (placed : c.Placed) (inner : self.isEntry = false) (room : Activation.need self ≤ c.sp.toNat)

variable (c result?) in
include inner room in
theorem Activation.toNat_callee : (c.callee self result?).sp.toNat + 8 + self.frame.size = c.sp.toNat ∧
    (c.callee self result?).start.toNat = (c.callee self result?).sp.toNat + 8 := by
  have top := c.sp.toNat_lt
  have need : Activation.need self = self.frame.size + 8 := rfl
  have sp : (c.callee self result?).sp.toNat = c.sp.toNat - Activation.need self := by
    show (c.sp - UInt32.ofNat (Activation.need self)).toNat = _
    have small : (UInt32.ofNat (Activation.need self)).toNat = Activation.need self := by
      rw [UInt32.toNat_ofNat']
      exact Nat.mod_eq_of_lt (by omega)
    rw [UInt32.toNat_sub_of_le _ _ (UInt32.le_iff_toNat_le.2 (by rw [small]; exact room)), small]
  refine ⟨by omega, ?_⟩
  have start : (c.callee self result?).start = (c.callee self result?).sp + 8 := by
    rw [Activation.start, show (c.callee self result?).self = self from rfl, inner]; rfl
  rw [start, UInt32.toNat_add]
  exact Nat.mod_eq_of_lt (by show _ + 8 < _; omega)

include placed inner room

theorem Activation.Placed.callee (framed : self.Framed) (low : ¬ (c.callee self result?).sp < c.scope.map.stackLimit) :
    (c.callee self result?).Placed := by
  obtain ⟨stop, start⟩ := Activation.toNat_callee c result? inner room
  have aligned := placed.aligned
  have whole := framed.aligned
  have above := placed.start
  obtain ⟨-, top⟩ := placed.blocks c.frame List.mem_cons_self
  obtain ⟨first, -⟩ := placed.blocks c.frame List.mem_cons_self
  refine ⟨by omega, ?_, ?_, ?_⟩
  · exact UInt32.le_iff_toNat_le.1 (UInt32.not_lt.1 low)
  · rw [start, show (c.callee self result?).self = self from rfl, inner]; rfl
  · intro b hb
    rcases List.mem_cons.1 hb with rfl | hb
    · show (c.callee self result?).start.toNat ≤ (c.callee self result?).start.toNat ∧
        (c.callee self result?).start.toNat + self.frame.size ≤ c.scope.map.stackTop.toNat
      omega
    · obtain ⟨first, last⟩ := placed.blocks b hb
      refine ⟨?_, last⟩
      omega

omit placed in
theorem Spares.of_callee (h : Spares (c.callee self result?) s t) : Spares c s t := by
  obtain ⟨stop, start⟩ := Activation.toNat_callee c result? inner room
  refine fun a aligned above outside => h a aligned (by omega) fun b hb => ?_
  rcases List.mem_cons.1 hb with rfl | hb
  · refine Bool.eq_false_iff.2 fun holds => ?_
    obtain ⟨-, last⟩ := Block.holds_iff.1 holds
    have last : a.toNat + 4 ≤ (c.callee self result?).start.toNat + self.frame.size := last
    omega
  · exact outside b hb

omit placed in
theorem Above.spares (h : Above (c.callee self result?) s t) : Spares c s t := by
  obtain ⟨stop, start⟩ := Activation.toNat_callee c result? inner room
  refine fun a aligned above _ => h a aligned ?_
  show (c.callee self result?).start.toNat + self.frame.size ≤ a.toNat
  omega

end

/-- A called function reaches what its caller reaches. -/
theorem reaches_callee (h : c.reaches st a = true) : (c.callee self result?).reaches st a = true := by
  obtain ⟨aligned, data | ⟨b, hb, holds⟩⟩ := reaches_iff.1 h
  · exact reaches_iff.2 ⟨aligned, .inl data⟩
  · exact reaches_iff.2 ⟨aligned, .inr ⟨b, List.mem_cons_of_mem _ hb, holds⟩⟩

/-- A called function reaches its own frame and what its caller reaches. -/
theorem reaches_of_callee (h : (c.callee self result?).reaches st a = true) :
    (c.callee self result?).frame.holds a = true ∨ c.reaches st a = true := by
  obtain ⟨aligned, data | ⟨b, hb, holds⟩⟩ := reaches_iff.1 h
  · exact .inr (reaches_iff.2 ⟨aligned, .inl data⟩)
  · rcases List.mem_cons.1 hb with rfl | hb
    · exact .inl holds
    · exact .inr (reaches_iff.2 ⟨aligned, .inr ⟨b, hb, holds⟩⟩)

theorem Shows.caller (h : Shows (c.callee self result?) st s) : Shows c st s :=
  ⟨fun a ha => h.word a (reaches_callee ha), h.aligned, h.low, h.high, h.fresh, h.size⟩

/-- What a function comes to is what the call comes to. -/
theorem Exits.of_callee (inner : self.isEntry = false) (room : Activation.need self ≤ c.sp.toNat)
    (above : Above (c.callee self result?) s t) (h : Exits m (c.callee self result?) k t fuel o.finished j u)
    (before : Spares c r s) : (At m.image k u ∧ ∃ st', o.returned = .next st' ∧ Matches c st' u ∧ Spares c r u) ∨
      Exits m c ret r (fuel + 1) o.returned (j + 1) u := by
  have back (st' : Store) (h : Exits m (c.callee self result?) k t fuel (.back st') j u) :
      At m.image k u ∧ Matches c st' u ∧ Spares c r u := by
    refine ⟨h.1, ⟨h.2.toShows.caller, ?_, h.2.bp, h.2.hp⟩, ?_⟩
    · rw [h.2.sp]
      exact UInt32.sub_add_cancel _ _
    · exact before.trans ((above.spares inner room).trans (h.2.spares.of_callee inner room))
  cases o with
  | next st' => exact .inl ⟨(back st' h).1, st', rfl, (back st' h).2⟩
  | back st' => exact .inl ⟨(back st' h).1, st', rfl, (back st' h).2⟩
  | stop code st' => exact .inr ⟨h.1, fun a ha => h.2 a (reaches_callee ha)⟩
  | timeout => exact .inr (Nat.succ_le_succ h)
  | stuck => exact .inr trivial

/-! ## Arguments in the frame -/

theorem Store.next_putVars {vars : List (Var × Word)} {start : Word} : (st.putVars start vars).next = st.next := by
  induction vars generalizing st with
  | nil => rfl
  | cons v vars ih => exact ih

theorem Activation.next_enter {ws : List Word} : (c.enter st ws).next = st.next := Store.next_putVars

theorem reaches_of_next (next : st'.next = st.next) : c.reaches st' a = c.reaches st a := by
  unfold Activation.reaches Activation.heap
  rw [next]

/-- Arguments fill the words at the start of a frame. -/
theorem Activation.Placed.args {d : Activation} (h : d.Placed) (framed : d.self.Framed)
    (words : ∀ v ∈ d.self.params, v.ty.isWord = true) {ws : List Word} (length : ws.length = d.self.arity) :
    (∀ v ∈ d.self.params.zip ws, ∃ i < d.self.arity, (d.start + UInt32.ofNat v.1.offset).toNat = d.start.toNat + 4 * i) ∧
      ∀ i < d.self.arity, ∃ v ∈ d.self.params.zip ws, (d.start + UInt32.ofNat v.1.offset).toNat = d.start.toNat + 4 * i := by
  have arity := framed.arity_le words
  have params := framed.length_params
  obtain ⟨-, last⟩ := h.blocks d.frame List.mem_cons_self
  have last : d.start.toNat + d.self.frame.size ≤ d.scope.map.stackTop.toNat := last
  have top := d.scope.map.stackTop.toNat_lt
  have address {i : Nat} (hi : i < d.self.arity) {v : Var} (hv : d.self.params[i]? = some v) :
      (d.start + UInt32.ofNat v.offset).toNat = d.start.toNat + 4 * i := by
    rw [framed.offset_param words hv, UInt32.toNat_add, UInt32.toNat_ofNat']
    omega
  constructor
  · intro v hv
    obtain ⟨i, hi, he⟩ := List.getElem_of_mem (List.of_mem_zip hv).1
    exact ⟨i, params ▸ hi, address (params ▸ hi) (he ▸ List.getElem?_eq_getElem hi)⟩
  · intro i hi
    have both : i < (d.self.params.zip ws).length := by
      rw [List.length_zip, params, length]
      omega
    refine ⟨_, List.getElem_mem both, ?_⟩
    rw [List.getElem_zip]
    exact address hi (List.getElem?_eq_getElem _)

variable (st) in
/-- A word that is no argument of a function keeps its value when the arguments are stored. -/
theorem Activation.Placed.putVars_of_ne {d : Activation} (h : d.Placed) (framed : d.self.Framed)
    (words : ∀ v ∈ d.self.params, v.ty.isWord = true) {ws : List Word} (length : ws.length = d.self.arity)
    (apart : ∀ i < d.self.arity, a.toNat ≠ d.start.toNat + 4 * i) :
    (st.putVars d.start (d.self.params.zip ws)).word a = st.word a := by
  refine Store.putVars_of_ne ?_
  rintro v hv rfl
  obtain ⟨i, hi, he⟩ := (h.args framed words length).1 v hv
  exact apart i hi he

/-- A word of a frame that is no local is an argument. -/
theorem Activation.Placed.arg_of_holds {d : Activation} (h : d.Placed) (framed : d.self.Framed)
    (words : ∀ v ∈ d.self.params, v.ty.isWord = true) {ws : List Word} (length : ws.length = d.self.arity)
    (aligned : a.toNat % 4 = d.start.toNat % 4) (inside : d.frame.holds a = true) (notLocal : d.locals.holds a = false) :
    ∃ v ∈ d.self.params.zip ws, d.start + UInt32.ofNat v.1.offset = a := by
  obtain ⟨first, last⟩ := Block.holds_iff.1 inside
  have first : d.start.toNat ≤ a.toNat := first
  have last : a.toNat + 4 ≤ d.start.toNat + d.self.frame.size := last
  rw [Bool.eq_false_iff, ne_eq, Block.holds_iff] at notLocal
  simp only [Activation.locals] at notLocal
  obtain ⟨v, hv, he⟩ := (h.args framed words length).2 ((a.toNat - d.start.toNat) / 4) (by omega)
  refine ⟨v, hv, UInt32.toNat_inj.1 ?_⟩
  rw [he]
  omega

section

variable {ws : List Word} (placed : c.Placed) (inner : self.isEntry = false) (room : Activation.need self ≤ c.sp.toNat)
  (framed : self.Framed) (low : ¬ (c.callee self result?).sp < c.scope.map.stackLimit)
  (words : ∀ v ∈ self.params, v.ty.isWord = true) (length : ws.length = self.arity)
  (link : t.memory = s.memory.write (c.callee self result?).sp (result?.getD 0))
  (memory : ∀ a : Word, a.toNat % 4 = 0 →
    u.memory.read a = ((memoryOf t).putVars (c.callee self result?).start (self.params.zip ws)).word a)

include placed inner room framed low words length link memory

/-- The first word below the arguments tells where the result goes. -/
theorem result_of_stored : u.memory.read (c.callee self result?).sp = result?.getD 0 := by
  have placedD := placed.callee inner room framed low
  obtain ⟨-, start⟩ := Activation.toNat_callee c result? inner room
  have aligned := placedD.aligned
  have kept := placedD.putVars_of_ne (memoryOf t) (a := (c.callee self result?).sp) framed words length
    fun i hi => by omega
  rw [memory _ aligned]
  refine kept.trans ?_
  show t.memory.read _ = _
  rw [link, Memory.read_write _ aligned aligned, if_pos rfl]

/-- Outside of a new frame and its link area nothing has changed. -/
theorem read_of_stored (ha : a.toNat % 4 = 0)
    (outside : a.toNat < (c.callee self result?).sp.toNat ∨ c.sp.toNat ≤ a.toNat) : u.memory.read a = s.memory.read a := by
  have placedD := placed.callee inner room framed low
  obtain ⟨stop, start⟩ := Activation.toNat_callee c result? inner room
  have arity : 4 * self.arity ≤ self.frame.size := framed.arity_le words
  have apart : (c.callee self result?).sp ≠ a := by
    rintro rfl
    omega
  have kept := placedD.putVars_of_ne (memoryOf t) (a := a) framed words length
    fun i (hi : i < self.arity) => by omega
  rw [memory a ha]
  refine kept.trans ?_
  show t.memory.read a = _
  rw [link, Memory.read_write _ placedD.aligned ha, if_neg apart]

/-- What a function reaches besides its locals is its arguments and what its caller reaches. -/
theorem word_of_stored (fits : m.Fits c.scope) (h : Matches c st s)
    (ha : (c.callee self result?).reaches ((c.callee self result?).enter st ws) a = true)
    (notLocal : (c.callee self result?).locals.holds a = false) :
    u.memory.read a = ((c.callee self result?).enter st ws).word a := by
  have placedD := placed.callee inner room framed low
  obtain ⟨stop, start⟩ := Activation.toNat_callee c result? inner room
  obtain ⟨-, limit, stack, -⟩ := fits.ordered
  have lowD : c.scope.map.stackLimit.toNat ≤ (c.callee self result?).sp.toNat := placedD.low
  have aligned := (reaches_iff.1 ha).1
  have alignedD := placedD.aligned
  have high := h.high
  have startC := placed.start
  rw [memory a aligned]
  refine Store.putVars_congr fun notArg => ?_
  rcases reaches_of_callee ha with inside | known
  · obtain ⟨v, hv, he⟩ := placedD.arg_of_holds framed words length (by omega) inside notLocal
    exact absurd he (notArg v hv)
  · rw [reaches_of_next Activation.next_enter] at known
    obtain ⟨-, region⟩ := placed.region fits h.low known
    have outside : (c.callee self result?).frame.holds a = false := Bool.eq_false_iff.2 fun holds => by
      obtain ⟨first, last⟩ := Block.holds_iff.1 holds
      have first : (c.callee self result?).start.toNat ≤ a.toNat := first
      have last : a.toNat + 4 ≤ (c.callee self result?).start.toNat + self.frame.size := last
      omega
    have apart : (c.callee self result?).sp ≠ a := by
      rintro rfl
      omega
    show t.memory.read a = if (c.callee self result?).frame.holds a = true then 0 else st.word a
    rw [link, Memory.read_write _ alignedD aligned, if_neg apart, outside, if_neg Bool.false_ne_true, h.word a known]

omit link memory in
/-- The locals of a function that starts are zero. -/
theorem zero_of_entered (ha : (c.callee self result?).locals.holds a = true) :
    ((c.callee self result?).enter st ws).word a = 0 := by
  have placedD := placed.callee inner room framed low
  obtain ⟨first, -⟩ := Block.holds_iff.1 ha
  have first : (c.callee self result?).start.toNat + 4 * self.arity ≤ a.toNat := first
  have inside : (c.callee self result?).frame.holds a = true := Block.holds_iff.2 (Activation.locals_holds ha)
  have kept := placedD.putVars_of_ne (st.clear (c.callee self result?).frame) (a := a) framed words length
    fun i (hi : i < self.arity) => by omega
  exact kept.trans (if_pos inside)

/-- A frame with arguments is that of a function that starts. -/
theorem called_of_stored (fits : m.Fits c.scope) (h : Matches c st s) (size : u.memory.size = t.memory.size)
    (sp : u.reg .sp = (c.callee self result?).sp) (bp : u.reg .bp = c.scope.map.globalBase) (hp : u.reg .hp = st.next)
    (ra : u.reg .ra = addressOf k) :
    Called (c.callee self result?) k ((c.callee self result?).enter st ws) u ∧ Spares c s u := by
  have next : ((c.callee self result?).enter st ws).next = st.next := Activation.next_enter
  have others {a : Word} := read_of_stored (a := a) placed inner room framed low words length link memory
  have lowD : c.scope.map.stackLimit.toNat ≤ (c.callee self result?).sp.toNat := (placed.callee inner room framed low).low
  obtain ⟨-, limit, stack, -⟩ := fits.ordered
  refine ⟨⟨sp, bp, hp.trans next.symm, ra, result_of_stored placed inner room framed low words length link memory, ?word, ?zero,
    next ▸ h.aligned, next ▸ h.low, next ▸ h.high, ?fresh, ?size⟩, fun a ha above _ => others ha (.inr above)⟩
  case word => exact fun a ha => word_of_stored placed inner room framed low words length link memory fits h ha
  case zero => exact fun a ha => zero_of_entered placed inner room framed low words length ha
  case fresh =>
    intro a ha first last
    rw [next] at first
    have last : a.toNat + 4 ≤ c.scope.map.heapLimit.toNat := last
    rw [others ha (.inl (by omega))]
    exact h.fresh a ha first last
  case size =>
    rw [size, link, Memory.size_write]
    exact h.size

end

/-! ## Calls -/

/-- Whether the code of the functions of a program stands in an image, under their names. -/
def Linked.Compiled (m : Linked) (scope : Scope) (program : Program) : Prop :=
  ∀ name self f, scope.function? name = some self → program.functions.find? (·.name = name) = some f →
    ∃ r, bodyCode { scope, self } f.body {} = .ok r ∧ m.Has (m.index self.name) r.code

/-- Whether code for the statements of functions does what they do with so much fuel. -/
def Carried (m : Linked) (scope : Scope) (program : Program) (fuel : Nat) : Prop :=
  ∀ (c : Activation) (ret : Nat) (st : Store) (s : State) (p : RegPool) (site : Site) (stmts : List Stmt), c.scope = scope →
    c.Placed → site.Serves c → p.Sound → Matches c st s → (c.self.isEntry = false → Links c ret s) →
      Carries m c ret (stmtsCode site stmts) p s fuel (runStmts program fuel c st stmts)

theorem function_eq_ok_iff {scope : Scope} {name : String} : scope.function name = .ok self ↔ scope.function? name = some self := by
  unfold Scope.function
  cases scope.function? name with
  | none => simp
  | some f => simp

variable (result?) in
/-- Code that makes room for the frame of a function, unless the stack ends before. -/
theorem leads_roomCode {rest : Emit Unit} {post : Unit → RegPool → State → Prop} {exit : Nat → State → Prop}
    (sp : s.reg .sp = c.sp)
    (crossed : (c.callee self result?).sp < c.scope.map.stackLimit →
      ∀ t, t.memory = s.memory → Halts t (Word.ofImm Signal.stackLimit) → exit 0 t)
    (fine : ¬ (c.callee self result?).sp < c.scope.map.stackLimit → ∀ t : State, t.memory = s.memory →
      Only [.sp, .k0] s.reg t.reg → t.reg .sp = (c.callee self result?).sp → rest.Leads m p t post exit) :
    Emit.Leads m (do
      bumpCode .sp (-((self.frame.size + Site.linkArea : Nat) : Int))
      stackCheckCode c.scope.map
      rest) p s post exit := by
  refine .seq (leads_bumpCode (by decide) (by decide) fun t memory only moved => ?_)
  have lowered : t.reg .sp = (c.callee self result?).sp := by
    rw [moved, sp, Word.ofInt_neg, Word.ofInt_natCast, ← UInt32.sub_eq_add_neg]; rfl
  refine .seq (leads_stackCheckCode (fun below u memory' halts => ?_) fun low u memory' only' => ?_)
  · rw [lowered] at below
    exact crossed below u (memory'.trans memory) halts
  · rw [lowered] at low
    refine fine low u (memory'.trans memory) (only.trans (only'.mono (by simp))) ?_
    rw [only' .sp (by decide), lowered]

/-- Code that stores the place of the result and the arguments in a frame for which there is room. -/
theorem leads_linkCode {rest : Emit Unit} {post : Unit → RegPool → State → Prop} {exit : Nat → State → Prop} {dst : Reg}
    {rs : List (Reg × Nat)} {ws : List Word} (placed : c.Placed) (fits : m.Fits c.scope) (inner : self.isEntry = false)
    (room : Activation.need self ≤ c.sp.toNat) (framed : self.Framed)
    (low : ¬ (c.callee self result?).sp < c.scope.map.stackLimit) (words : ∀ v ∈ self.params, v.ty.isWord = true)
    (length : ws.length = self.arity) (size : c.scope.map.stackTop.toNat ≤ s.memory.size)
    (sp : s.reg .sp = (c.callee self result?).sp) (destination : s.reg dst = result?.getD 0)
    (ready : List.Forall₂ (Ready p s) rs (self.params.zip ws))
    (fine : ∀ t u : State, t.memory = s.memory.write (c.callee self result?).sp (result?.getD 0) → Only [.k1] s.reg u.reg →
      u.memory.size = t.memory.size → (∀ a : Word, a.toNat % 4 = 0 →
        u.memory.read a = ((memoryOf t).putVars (c.callee self result?).start (self.params.zip ws)).word a) →
      rest.Leads m p u post exit) :
    Emit.Leads m (do
      Emit.instr (.sw dst .sp 0)
      storeArgsCode rs
      rest) p s post exit := by
  -- the new frame lies in memory
  have placedD := placed.callee inner room framed low
  obtain ⟨stop, start⟩ := Activation.toNat_callee c result? inner room
  obtain ⟨base, limit, stack, -⟩ := fits.ordered
  obtain ⟨-, last⟩ := placedD.blocks _ List.mem_cons_self
  have last : (c.callee self result?).start.toNat + self.frame.size ≤ c.scope.map.stackTop.toNat := last
  have lowD : c.scope.map.stackLimit.toNat ≤ (c.callee self result?).sp.toNat := placedD.low
  have alignedD := placedD.aligned
  have image := fits.image
  have arity := framed.arity_le words
  have place : s.reg .sp + Word.ofImm 0 = (c.callee self result?).sp := by
    rw [sp]
    exact UInt32.add_zero _
  refine .seq (.store (by rw [place, CanAccess]; omega) (by rw [place]; omega) fun t memory regs => ?_)
  rw [place, destination] at memory
  have ready' : List.Forall₂ (Ready p t) rs (self.params.zip ws) := ready.imp fun _ _ h => h.of_regs fun r _ _ => by rw [regs]
  have frame : t.reg .sp + UInt32.ofNat Site.linkArea = (c.callee self result?).start := by
    rw [regs, sp, Activation.start, show (c.callee self result?).self = self from rfl, inner]; rfl
  refine .seq (leads_storeArgsCode ready' frame (fun v hv => ?_) fun u only size' stored => ?_)
  · obtain ⟨i, hi, address⟩ := (placedD.args framed words length).1 v hv
    have hi : i < self.arity := hi
    rw [CanAccess, memory, Memory.size_write, address]
    omega
  · exact fine t u memory (regs ▸ only) size' stored

theorem carries_callCode {program : Program} {callee : Call} {target : Option Place} (placed : c.Placed) (fits : m.Fits c.scope)
    (hc : site.Serves c) (hp : p.Sound) (h : Matches c st s) (compiled : m.Compiled c.scope program)
    (bodies : Carried m c.scope program fuel) :
    Carries m c ret (callCode site callee target) p s (fuel + 1) (c.call program (runStmts program fuel) st callee target) := by
  unfold Activation.call
  refine .given fun self hself => .given fun f hf => .given fun result? hr => .given fun ws hws => ?_
  by_cases room : c.sp.toNat < Activation.need self
  · rw [if_pos room]
    exact .stuck
  rw [if_neg room]
  have room : Activation.need self ≤ c.sp.toNat := Nat.le_of_not_lt room
  have framed := fits.framed self (List.mem_of_find?_eq_some hself)
  refine .seq (.ofExcept fun self' hself' => ?_)
  obtain rfl : self' = self := by
    rw [hc.scope, function_eq_ok_iff, hself] at hself'
    exact (Option.some.inj hself').symm
  refine .ite (fun _ => .fail) fun inner => ?_
  have inner : self'.isEntry = false := Bool.eq_false_iff.2 inner
  refine .seq (leads_destinationCode placed fits hc hp h hr fun dst q t sound guards plain keeps more word => ?_)
  refine .ite (fun _ => .fail) fun count => ?_
  have count : callee.args.length = self'.params.length := by
    rw [framed.length_params]
    exact Decidable.not_not.1 count
  have ht := h.keeps keeps
  refine .seq (leads_argsCode placed fits hc sound ht hws count fun rs q' u sound' keeps' more' ready length words => ?_)
  have hu := ht.keeps keeps'
  have length : ws.length = self'.arity := length.trans framed.length_params
  have spares : Spares c s u := (Spares.of_memory keeps.memory).trans (.of_memory keeps'.memory)
  have destination : u.reg dst = result?.getD 0 := (keeps'.regs dst guards).trans word
  rw [hc.scope]
  refine leads_roomCode result? hu.sp (fun crossed x memory halts => ?_) fun low x memory only sp => ?_
  · rw [if_pos crossed]
    exact ⟨halts, fun a ha => by rw [memory, hu.word a ha]⟩
  rw [if_neg low]
  have aside : dst ≠ .k0 := fun he => q.not_guards_k0 (he ▸ guards)
  have destination : x.reg dst = result?.getD 0 := by rw [only dst (by simp [plain, aside]), destination]
  have ready : List.Forall₂ (Ready q' x) rs (self'.params.zip ws) := ready.imp fun _ _ h => h.of_regs fun r lent _ =>
    only r (by simp [RegPool.ne_of_mem_lent lent RegPool.sp_notMem_lent, RegPool.ne_of_mem_lent lent RegPool.k0_notMem_lent])
  refine leads_linkCode placed fits inner room framed low words length (by rw [memory]; exact hu.size) sp destination ready
    fun y z linked only' size stored => ?_
  rw [memory] at linked
  obtain ⟨code, hcode, has⟩ := compiled _ _ _ hself hf
  refine .call hcode has fun v k memory' regs => ?_
  have kept {r : Reg} (link : r ≠ .ra) (scratch : r ≠ .k1) : v.reg r = x.reg r := by
    rw [regs, setReg_of_ne link, only' r (by simp [scratch])]
  obtain ⟨called, unchanged⟩ := called_of_stored (k := k) placed inner room framed low words length linked
    (fun a ha => by rw [memory', stored a ha]) fits hu (by rw [memory', size]) (by rw [kept (by decide) (by decide), sp])
    (by rw [kept (by decide) (by decide), only _ (by decide), hu.bp])
    (by rw [kept (by decide) (by decide), only _ (by decide), hu.hp]) (by rw [regs, setReg_self (by decide)])
  have placedD := placed.callee inner room framed low
  refine .mono (leads_bodyCode placedD fits inner framed words rfl called fun p t sound matched links =>
    bodies _ _ _ _ _ _ _ rfl placedD ⟨rfl, rfl⟩ sound matched fun _ => links) (fun _ _ _ never => never) ?_
  rintro j x ⟨t', above, left⟩
  exact Exits.of_callee inner room above left (spares.trans unchanged)

end M32.Lang
