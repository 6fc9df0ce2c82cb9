/-
  Assignments, new objects and returns.

  1. `carries_assignCode` and `carries_newCode`: the code changes the word that the statement changes.
  2. `carries_returnCode`: the code leaves the function as the statement does.  A function that was called finds the place of
     its result and its return address below its frame (`Links`).
-/
import M32.Proofs.Lang.Run.Checks

namespace M32.Lang

open Machine
open Outcome (given)

variable {m : Linked} {c : Activation} {st st' : Store} {s t u : State} {a w : Word} {ret fuel : Nat} {p : RegPool} {site : Site}

theorem store?_eq_some_iff : c.store? st a w = some st' ↔ c.reaches st a = true ∧ st' = st.put a w := by
  rw [Activation.store?]
  split
  · next h => simp [h, eq_comm]
  · next h => simp [h]

/-! ## Assignments -/

theorem carries_assignCode {target : Place} {e : Expr} (placed : c.Placed) (fits : m.Fits c.scope) (hc : site.Serves c)
    (hp : p.Sound) (h : Matches c st s) : Carries m c ret (assignCode site target e) p s fuel
      (given (e.eval c st) fun v => given (target.find c st) fun dst => given (c.store? st dst.2 v.2) .next) := by
  refine .given fun (ty, w) hv => .given fun (ty', a) hd => .given fun st' hst => ?_
  obtain ⟨reached, rfl⟩ := store?_eq_some_iff.1 hst
  refine .seq (leads_exprCode fits.bounded hc e hp (h.sees placed fits) hv fun v q t g => ?_)
  have ht := h.keeps g.keeps
  refine .seq (leads_placeCode fits.bounded hc target (g.sound hp) (ht.sees placed fits) hd fun d q' u gd => ?_)
  have hu := ht.keeps gd.keeps
  have place : u.reg d.reg + Word.ofImm 0 = a := by
    rw [gd.word]
    exact UInt32.add_zero _
  obtain ⟨access, behind⟩ := hu.access placed fits reached
  refine .seq (.ofExcept fun _ _ => .store (by rwa [place]) (by rwa [place]) fun x memory regs => ?_)
  rw [place, g.kept gd] at memory
  obtain ⟨shows, spares⟩ := hu.store placed fits reached memory
  refine ⟨_, rfl, ⟨shows, by rw [regs, hu.sp], by rw [regs, hu.bp], by rw [regs, hu.hp]; rfl⟩, ?_⟩
  exact (Spares.of_memory (gd.keeps.memory.trans g.keeps.memory)).trans spares

/-! ## New objects -/

/-- The heap with a new object in it. -/
theorem Shows.allocate {size next : Nat} (h : Shows c st s) (placed : c.Placed) (fits : m.Fits c.scope) (hs : size % 4 = 0)
    (hn : next = st.next.toNat + size) (high : next ≤ c.scope.map.heapLimit.toNat) :
    Shows c { st.clear ⟨st.next.toNat, size⟩ with next := UInt32.ofNat next } s := by
  have limit := c.scope.map.heapLimit.toNat_lt
  have next_eq : (UInt32.ofNat next).toNat = next := by
    rw [UInt32.toNat_ofNat']
    exact Nat.mod_eq_of_lt (by omega)
  obtain ⟨-, -, stack, -⟩ := fits.ordered
  have low := h.low
  have aligned := h.aligned
  have placed_low := placed.low
  have start := placed.start
  refine ⟨fun a ha => ?_, ?_, ?_, ?_, fun a ha first last => ?_, h.size⟩
  · obtain ⟨ha, where_⟩ := reaches_iff.1 ha
    show s.memory.read a = if (Block.mk st.next.toNat size).holds a then 0 else st.word a
    by_cases inside : (Block.mk st.next.toNat size).holds a = true
    · obtain ⟨first, last⟩ := Block.holds_iff.1 inside
      rw [if_pos inside]
      exact h.fresh a ha first (by simp only at first last; omega)
    · rw [if_neg inside]
      rw [Block.holds_iff] at inside
      simp only at inside
      refine h.word a (reaches_iff.2 ⟨ha, ?_⟩)
      rcases where_ with (globals | heap) | frames
      · exact .inl (.inl globals)
      · refine .inl (.inr (Block.holds_iff.2 ?_))
        obtain ⟨first, last⟩ := Block.holds_iff.1 heap
        simp only [Activation.heap, next_eq] at first last ⊢
        omega
      · exact .inr frames
  · show (UInt32.ofNat next).toNat % 4 = 0
    omega
  · show c.scope.map.heapBase.toNat ≤ (UInt32.ofNat next).toNat
    omega
  · show (UInt32.ofNat next).toNat ≤ c.scope.map.heapLimit.toNat
    omega
  · have first : (UInt32.ofNat next).toNat ≤ a.toNat := first
    exact h.fresh a ha (by omega) last

theorem newSize_pointer {elem : Ty} {size size' : Nat} (fits : m.Fits c.scope) (hc : site.Serves c)
    (hn : (c.scope.types.sizeOf elem).toOption = some size) (hn' : newSize site (.pointer elem) = .ok size') :
    size' = size ∧ size % 4 = 0 := by
  rw [newSize, hc.scope] at hn'
  cases ho : c.scope.types.sizeOf elem with
  | error fault => rw [ho] at hn; cases hn
  | ok n =>
    rw [ho] at hn hn'
    cases hn
    cases hk : c.scope.types.check (.pointer elem) with
    | error fault => rw [hk] at hn'; cases hn'
    | ok u =>
      rw [hk] at hn'
      cases hn'
      exact ⟨rfl, fits.aligned.sizeOf ho⟩

theorem carries_newCode {target : Place} {ty : Ty} (placed : c.Placed) (fits : m.Fits c.scope) (hc : site.Serves c)
    (hp : p.Sound) (h : Matches c st s) :
    Carries m c ret (newCode site target ty) p s fuel (c.create st target ty) := by
  unfold Activation.create
  cases ty with
  | pointer elem =>
    refine .given fun size hn => .given fun (ty', a) hd => .given fun st' hst => ?_
    obtain ⟨reached, rfl⟩ := store?_eq_some_iff.1 hst
    by_cases wraps : addressSpace ≤ st.next.toNat + size
    · rw [show (st.put a st.next).next = st.next from rfl, if_pos wraps]
      exact .stuck
    refine .seq (.ofExcept fun size' hn' => ?_)
    obtain ⟨rfl, aligned⟩ : size' = size ∧ size % 4 = 0 := newSize_pointer fits hc hn hn'
    refine .seq (leads_placeCode fits.bounded hc target hp (h.sees placed fits) hd fun d q t g => ?_)
    have ht := h.keeps g.keeps
    have place : t.reg d.reg + Word.ofImm 0 = a := by
      rw [g.word]
      exact UInt32.add_zero _
    obtain ⟨access, behind⟩ := ht.access placed fits reached
    refine .seq (.ofExcept fun _ _ => .seq (.store (by rwa [place]) (by rwa [place]) fun u memory regs => ?_))
    rw [place, ht.hp] at memory
    obtain ⟨shows, spares⟩ := ht.store placed fits reached memory
    have spares := (Spares.of_memory g.keeps.memory).trans spares
    refine .seq (leads_bumpCode (by decide) (by decide) fun x memory' only moved => ?_)
    have kept (r : Reg) (hr : r ∉ [Reg.hp, .k0]) : x.reg r = t.reg r := by rw [only r hr, regs]
    have next : (x.reg .hp).toNat = st.next.toNat + size' := by
      rw [moved, regs, ht.hp, Word.ofInt_natCast, UInt32.toNat_add, UInt32.toNat_ofNat']
      simp only [addressSpace] at wraps
      omega
    rw [show (st.put a st.next).next = st.next from rfl, if_neg wraps]
    refine leads_heapCheckCode (fun crossed y memory'' halts => ?_) fun fine y memory'' only' => ?_
    · rw [hc.scope, UInt32.lt_iff_toNat_lt, next] at crossed
      rw [if_pos crossed]
      exact ⟨halts, fun b hb => by rw [memory'', memory', shows.word b hb]⟩
    · rw [hc.scope, UInt32.lt_iff_toNat_lt, next] at fine
      rw [if_neg fine]
      have memory := memory''.trans memory'
      refine ⟨_, rfl, ⟨(shows.of_memory memory).allocate placed fits aligned rfl (by omega), ?_, ?_, ?_⟩, spares.trans (.of_memory memory)⟩
      · rw [only' .sp (by decide), kept .sp (by decide), ht.sp]
      · rw [only' .bp (by decide), kept .bp (by decide), ht.bp]
      · rw [only' .hp (by decide)]
        apply UInt32.toNat_inj.1
        rw [next, UInt32.toNat_ofNat']
        simp only [addressSpace] at wraps
        omega
  | scalar sc => exact .stuck
  | struct name => exact .stuck
  | array elem length => exact .stuck

/-! ## Returns -/

/-- What a caller leaves below the frame of a function: the place of the result, or zero, and the return address. -/
structure Links (c : Activation) (ret : Nat) (s : State) : Prop where
  result : s.memory.read c.sp = c.result?.getD 0
  back : s.memory.read (c.sp + 4) = addressOf ret

/-- The link area lies below all frames. -/
theorem Activation.Placed.linkArea (h : c.Placed) (inner : c.self.isEntry = false) :
    (c.sp + 4).toNat = c.sp.toNat + 4 ∧ c.sp.toNat + 8 ≤ c.scope.map.stackTop.toNat ∧
      ∀ b ∈ c.frame :: c.waiting, c.sp.toNat + 8 ≤ b.start := by
  have start := h.start
  rw [inner] at start
  have start : c.start.toNat = c.sp.toNat + 8 := start
  obtain ⟨first, last⟩ := h.blocks c.frame List.mem_cons_self
  have top := c.scope.map.stackTop.toNat_lt
  refine ⟨?_, by omega, fun b hb => ?_⟩
  · rw [UInt32.toNat_add]
    exact Nat.mod_eq_of_lt (by show c.sp.toNat + 4 < _; omega)
  · obtain ⟨above, -⟩ := h.blocks b hb
    omega

theorem Links.spares (h : Links c ret s) (placed : c.Placed) (inner : c.self.isEntry = false) (kept : Spares c s t) :
    Links c ret t := by
  obtain ⟨next, -, above⟩ := placed.linkArea inner
  have aligned := placed.aligned
  have outside {a : Word} (ha : a.toNat < c.sp.toNat + 8) : ∀ b ∈ c.frame :: c.waiting, b.holds a = false := by
    intro b hb
    refine Bool.eq_false_iff.2 fun holds => ?_
    obtain ⟨first, -⟩ := Block.holds_iff.1 holds
    have := above b hb
    omega
  refine ⟨?_, ?_⟩
  · rw [kept c.sp aligned (Nat.le_refl _) (outside (by omega)), h.result]
  · rw [kept (c.sp + 4) (by omega) (by omega) (outside (by omega)), h.back]

/-- The code with which a function goes back to its caller. -/
def leavingCode (site : Site) : Emit Unit := do
  Emit.instr (.lw .ra .sp 4)
  bumpCode .sp ((site.self.frame.size + Site.linkArea : Nat) : Int)
  Emit.instr (.jr .ra)

theorem leads_leavingCode {post : Unit → RegPool → State → Prop} {exit : Nat → State → Prop} (placed : c.Placed)
    (inner : c.self.isEntry = false) (h : Matches c st s) (links : Links c ret s) (hself : site.self = c.self)
    (back : ∀ t, At m.image ret t → Returned c st s t → exit 0 t) :
    (leavingCode site).Leads m p s post exit := by
  obtain ⟨next, top, -⟩ := placed.linkArea inner
  have aligned := placed.aligned
  have place : s.reg .sp + Word.ofImm 4 = c.sp + 4 := by rw [h.sp]; rfl
  have size := h.size
  refine .seq (.load (by rw [place]; exact ⟨by omega, by omega⟩) fun t memory regs => ?_)
  rw [place, links.back] at regs
  refine .seq (leads_bumpCode (by decide) (by decide) fun u memory' only moved => ?_)
  intro r k hx hk hl
  cases (Emit.instr_eq_ok_iff _ _).1 hx
  have address : u.reg .ra = addressOf ret := by rw [only .ra (by decide), regs, setReg_self (by decide)]
  obtain ⟨x, hx, regs'⟩ := computes_jumpReg hk hl.cons.1.head address
  obtain ⟨n, runs⟩ := hx.runs
  have all : x.memory = s.memory := hx.memory.trans (memory'.trans memory)
  refine .inr ⟨n, 0, x, runs, Nat.zero_le n, back x hx.at_end ⟨h.toShows.of_memory all, ?_, ?_, ?_, .of_memory all⟩⟩
  · rw [regs', moved, regs, setReg_of_ne (by decide), h.sp, Word.ofInt_natCast, hself]; rfl
  · rw [regs', only .bp (by decide), regs, setReg_of_ne (by decide), h.bp]
  · rw [regs', only .hp (by decide), regs, setReg_of_ne (by decide), h.hp]

/-- The store with a result where it goes, if anywhere. -/
def Activation.stored (c : Activation) (st : Store) (w : Word) : Store :=
  match c.result? with
  | some a => st.put a w
  | none => st

/-- The result is stored where the caller wants it, if it does. -/
theorem leads_storeResult {dst value : Reg} {post : Unit → RegPool → State → Prop} {exit : Nat → State → Prop}
    (placed : c.Placed) (fits : m.Fits c.scope) (inner : c.self.isEntry = false) (h : Matches c st s) (links : Links c ret s)
    (lent : dst ∈ RegPool.lent) (other : value ≠ dst) (reached : ∀ a, c.result? = some a → c.reaches st a = true)
    (fine : ∀ t : State, Matches c (c.stored st (s.reg value)) t → Spares c s t → post () p t) :
    (Emit.lines [.instr (.lw dst .sp 0), .instr (.beq dst .zero 2), .instr (.sw value dst 0)]).Leads m p s post exit := by
  obtain ⟨-, top, -⟩ := placed.linkArea inner
  have nonzero : dst ≠ .zero := RegPool.ne_of_mem_lent lent RegPool.zero_notMem_lent
  intro r k hx hk hl
  cases (Emit.lines_eq_ok_iff _ _).1 hx
  have code : Lies m.image k [.lw dst .sp 0, .beq dst .zero 2, .sw value dst 0] := hl
  have size := h.size
  have place : s.reg .sp + Word.ofImm 0 = c.sp := by
    rw [h.sp]
    exact UInt32.add_zero _
  obtain ⟨t1, h1, r1⟩ := computes_load hk code.head (by rw [place]; exact ⟨placed.aligned, by omega⟩)
  rw [place, links.result] at r1
  have named {t : State} (regs : t.reg = t1.reg) {q : Reg} (hq : q ∉ RegPool.lent) : t.reg q = s.reg q := by
    rw [regs, r1, setReg_of_ne (RegPool.ne_of_mem_lent lent hq).symm]
  have carried {t : State} {st' : Store} (regs : t.reg = t1.reg) (shows : Shows c st' t) (next : st'.next = st.next) :
      Matches c st' t :=
    ⟨shows, by rw [named regs (by decide), h.sp], by rw [named regs (by decide), h.bp],
      by rw [named regs (by decide), h.hp, next]⟩
  cases hr : c.result? with
  | none =>
    rw [hr] at r1
    obtain ⟨t2, h2, r2⟩ := computes_branch h1.at_end code.tail.head (l := k + 3) (by
      rw [h1.at_end.zero, r1, setReg_self nonzero]; rfl)
    have both := h1.trans h2
    obtain ⟨n, runs⟩ := both.runs
    rw [Activation.stored, hr] at fine
    exact .inl ⟨n, t2, runs, h2.at_end, fine t2 (carried r2 (h.toShows.of_memory both.memory) rfl) (.of_memory both.memory)⟩
  | some a =>
    rw [hr] at r1
    obtain ⟨access, behind⟩ := h.access placed fits (reached a hr)
    have wanted : a ≠ 0 := by
      have some_code := fits.some_code
      have zero : (0 : Word).toNat = 0 := rfl
      rintro rfl
      omega
    obtain ⟨t2, h2, r2⟩ := computes_branch h1.at_end code.tail.head (l := k + 2) (by
      rw [h1.at_end.zero, r1, setReg_self nonzero,
        show PairTest.eq.holds ((some a).getD 0) 0 = false from beq_eq_false_iff_ne.2 wanted]
      rfl)
    have same : t2.memory = s.memory := (h1.trans h2).memory
    have place2 : t2.reg dst + Word.ofImm 0 = a := by
      rw [r2, r1, setReg_self nonzero]
      exact UInt32.add_zero _
    obtain ⟨t3, h3, r3⟩ := stores_store h2.at_end code.tail.tail.head (by rw [place2, CanAccess, same]; exact access)
      (by rwa [place2])
    have stored : t2.reg value = s.reg value := by rw [r2, r1, setReg_of_ne other]
    have memory : t3.memory = s.memory.write a (s.reg value) := by rw [h3.memory, place2, stored, same]
    obtain ⟨shows, spares⟩ := h.store placed fits (reached a hr) memory
    obtain ⟨n, runs⟩ := ((h1.trans h2).reaches.trans h3.reaches).runs
    rw [Activation.stored, hr] at fine
    exact .inl ⟨n, t3, runs, h3.at_end, fine t3 (carried (r3.trans r2) shows rfl) spares⟩

/-- The code for the result of a function. -/
theorem leads_resultCode {e : Expr} {ty : Ty} {post : Unit → RegPool → State → Prop} {exit : Nat → State → Prop}
    (placed : c.Placed) (fits : m.Fits c.scope) (inner : c.self.isEntry = false) (hc : site.Serves c) (hp : p.Sound)
    (h : Matches c st s) (links : Links c ret s) (hv : e.eval c st = some (ty, w))
    (reached : ∀ a, c.result? = some a → c.reaches st a = true)
    (fine : ∀ q t, Matches c (c.stored st w) t → Links c ret t → Spares c s t → post () q t) :
    (resultCode site e).Leads m p s post exit := by
  unfold resultCode
  split
  · exact .fail
  refine .seq (leads_exprCode fits.bounded hc e hp (h.sees placed fits) hv fun v q t g => .seq (.ofExcept fun _ _ => ?_))
  have ht := h.keeps g.keeps
  have spares : Spares c s t := .of_memory g.keeps.memory
  refine .seq (.acquire fun dst q' taken => ?_)
  have other : v.reg ≠ dst := g.distinct taken
  refine leads_storeResult placed fits inner ht (links.spares placed inner spares) taken.lent other reached
    fun u hu spares' => ?_
  rw [g.word] at hu
  have kept := spares.trans spares'
  exact fine _ u hu (links.spares placed inner kept) kept

/-- Leaving a function without a result. -/
theorem carries_returnCode_none (placed : c.Placed) (hself : site.self = c.self) (h : Matches c st s)
    (links : c.self.isEntry = false → Links c ret s) :
    Carries m c ret (returnCode site none) p s fuel (c.leave st none) := by
  unfold Activation.leave returnCode
  cases he : c.self.isEntry with
  | true =>
    have here : site.self.isEntry = true := hself ▸ he
    rw [if_pos here, if_pos rfl]
    show Carries m c ret _ p s fuel (.stop (Word.ofImm Signal.exit) st)
    refine .of_zero fun zero => .seq (.instr rfl fun t memory regs => leads_syscall fun halts => ⟨?_, fun a ha => ?_⟩)
    · rw [regs, setReg_self (by decide), zero] at halts
      exact (UInt32.zero_add (Word.ofImm Signal.exit)) ▸ halts
    · rw [memory, h.word a ha]
  | false =>
    have here : site.self.isEntry = false := hself ▸ he
    rw [if_neg (Bool.eq_false_iff.1 here), if_neg Bool.false_ne_true]
    exact leads_leavingCode placed he h (links he) hself fun t at_ret returned => ⟨at_ret, returned⟩

/-- Leaving a function. -/
theorem carries_returnCode {value : Option Expr} (placed : c.Placed) (fits : m.Fits c.scope) (hc : site.Serves c)
    (hp : p.Sound) (h : Matches c st s) (links : c.self.isEntry = false → Links c ret s) :
    Carries m c ret (returnCode site value) p s fuel (c.leave st value) := by
  cases value with
  | none => exact carries_returnCode_none placed hc.self h links
  | some e =>
    unfold Activation.leave
    cases he : c.self.isEntry with
    | true =>
      have here : site.self.isEntry = true := hc.self ▸ he
      unfold returnCode
      rw [if_pos here, if_pos rfl]
      refine Carries.given fun (ty, w) hv => ?_
      refine .seq (leads_exprCode fits.bounded hc e hp (h.sees placed fits) hv fun v q t g => ?_)
      refine .of_zero fun zero => .seq (.instr rfl fun u memory regs => leads_syscall fun halts => ⟨?_, fun a ha => ?_⟩)
      · have code : u.reg .sig = w := by
          rw [regs, setReg_self (by decide), zero, g.word]
          exact UInt32.add_zero w
        exact code ▸ halts
      · rw [memory, (h.keeps g.keeps).word a ha]
    | false =>
      have here : site.self.isEntry = false := hc.self ▸ he
      have links := links he
      rw [if_neg Bool.false_ne_true]
      refine Carries.given fun (ty, w) hv => ?_
      -- both ways of leaving store the result, if only nowhere
      have leaves (stored : ∀ b, c.result? = some b → c.reaches st b = true) :
          Carries m c ret (returnCode site (some e)) p s fuel (.back (c.stored st w)) := by
        unfold returnCode
        rw [if_neg (Bool.eq_false_iff.1 here)]
        refine .seq (leads_resultCode placed fits he hc hp h links hv stored fun q t ht links' spares => ?_)
        exact leads_leavingCode placed he ht links' hc.self fun u at_ret returned =>
          ⟨at_ret, { returned with spares := spares.trans returned.spares }⟩
      cases hr : c.result? with
      | none =>
        have stored : c.stored st w = st := by rw [Activation.stored, hr]
        exact stored ▸ leaves fun b hb => absurd (hr.symm.trans hb) (by simp)
      | some a =>
        refine Carries.given fun st' hst => ?_
        obtain ⟨reached, rfl⟩ := store?_eq_some_iff.1 hst
        have stored : c.stored st w = st.put a w := by rw [Activation.stored, hr]
        refine stored ▸ leaves fun b hb => ?_
        obtain rfl : a = b := Option.some.inj (hr.symm.trans hb)
        exact reached

end M32.Lang
