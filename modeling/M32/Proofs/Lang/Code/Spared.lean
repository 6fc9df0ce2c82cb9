/-
  Statements that copy between places and general registers.

  1. `copy_parts`: both kinds mark the named register and the spared ones as used, compute the address of the place and
     end with a few lines.  So the address lies in a register that is none of these.
  2. `SparesAll` says that a run leaves the spared registers as they were, unless they are among `k0` to `k3` and the code sets
     them.
  3. `registers_spared`: a machine that can access what the statement loads from and stores to comes to its end, and all
     spared registers but the named one hold what they held.  `k0` to `k3` can be named and spared as well, but distances that
     are too long for an instruction, products and quotients go through them.
-/
import M32.Proofs.Lang.Code.Delivered

namespace M32.Lang

open Machine

variable {site : Site} {p q : RegPool} {s t : State} {n : Nat} {place : Place} {spared : List Nat}

/-! ## Named registers -/

theorem namedReg_eq_ok {reg : Reg} (h : namedReg site n = .ok reg) : Reg.ofNat? n = some reg ∧ reg ≠ .zero := by
  unfold namedReg at h
  split at h
  · next r hr =>
    split at h
    · cases h
    · next nonzero =>
      cases h
      exact ⟨hr, nonzero⟩
  · cases h

/-- Every spared number is that of a register. -/
theorem mapM_namedReg {others : List Reg} (h : spared.mapM (namedReg site) = .ok others) :
    ∀ m ∈ spared, ∃ x ∈ others, namedReg site m = .ok x := by
  induction spared generalizing others with
  | nil => exact nofun
  | cons m ms ih =>
    rw [List.mapM_cons] at h
    cases hm : namedReg site m with
    | error fault => rw [hm] at h; cases h
    | ok x =>
      cases hs : ms.mapM (namedReg site) with
      | error fault => rw [hm, hs] at h; cases h
      | ok xs =>
        rw [hm, hs] at h
        cases h
        intro k hk
        rcases List.mem_cons.1 hk with rfl | hk
        · exact ⟨x, List.mem_cons_self, hm⟩
        · obtain ⟨y, hy, named⟩ := ih hs k hk
          exact ⟨y, List.mem_cons_of_mem _ hy, named⟩

/-! ## Occupied registers -/

/-- Occupying registers takes no code, and all of them are in use afterwards. -/
theorem occupy_eq_ok {rs : List Reg} {a : Emitted (List Reg)} (h : Emit.occupy rs p = .ok a) :
    a.code = [] ∧ (p.Made → a.pool.Made) ∧ (∀ x ∈ rs, a.pool.isUsed x = true) ∧ ∀ x, p.isUsed x = true → a.pool.isUsed x = true := by
  induction rs generalizing p a with
  | nil =>
    cases (Emit.pure_eq_ok_iff _ a).1 h
    exact ⟨rfl, id, nofun, fun _ => id⟩
  | cons r rs ih =>
    obtain ⟨_, b, ⟨⟩, hb, rfl⟩ := (Emit.bind_eq_ok_iff _ _ p a).1 h
    obtain ⟨c, d, hc, hd, rfl⟩ := (Emit.bind_eq_ok_iff _ _ _ b).1 hb
    cases (Emit.pure_eq_ok_iff _ d).1 hd
    obtain ⟨code, made, all, kept⟩ := ih hc
    have first : (p.occupy r).2.isUsed r = true := by
      show (p.setUsed r true).isUsed r = true
      rw [RegPool.isUsed_setUsed, if_pos rfl]
    refine ⟨?_, fun hp => made (.occupy hp r), ?_, ?_⟩
    · show [] ++ (c.code ++ []) = []
      rw [code]
      rfl
    · intro x hx
      rcases List.mem_cons.1 hx with rfl | hx
      · exact kept x first
      · exact all x hx
    · intro x hx
      apply kept
      show (p.setUsed r true).isUsed x = true
      rw [RegPool.isUsed_setUsed]
      split
      · rfl
      · exact hx

/-- Giving registers back takes no code. -/
theorem code_releases {rs : List Reg} {a : Emitted PUnit} (h : (rs.forM Emit.release) p = .ok a) : a.code = [] := by
  induction rs generalizing p a with
  | nil =>
    cases (Emit.pure_eq_ok_iff _ a).1 h
    rfl
  | cons r rs ih =>
    obtain ⟨b, c, hb, hc, rfl⟩ := (Emit.bind_eq_ok_iff _ _ p a).1 h
    cases (Emit.registers_eq_ok_iff _ b).1 hb
    exact ih hc

/-! ## Copies -/

/-- Copies between a place and a general register: some lines after the code for the address. -/
def copyCode (site : Site) (n : Nat) (place : Place) (spared : List Nat) (last : Reg → Reg → List Line) : Emit Unit :=
  sparingCode site n spared fun reg => do
    let address ← wordPlaceCode site place
    Emit.lines (last reg address)

theorem toGprCode_eq : toGprCode site n place spared =
    copyCode site n place spared fun reg address => [.instr (.lw address address 0), .instr (.add reg address .zero)] := rfl

theorem fromGprCode_eq : fromGprCode site place n spared =
    copyCode site n place spared fun reg address => [.instr (.sw reg address 0)] := rfl

/-- The parts of a copy.  The code for the address starts with the named register and the spared ones in use. -/
theorem copy_parts {last : Reg → Reg → List Line} {r : Emitted Unit} (made : p.Made)
    (h : copyCode site n place spared last p = .ok r) :
    ∃ reg q d, Reg.ofNat? n = some reg ∧ reg ≠ .zero ∧ q.Made ∧ q.isUsed reg = true ∧
      (∀ m ∈ spared, ∃ x, Reg.ofNat? m = some x ∧ x ≠ .zero ∧ q.isUsed x = true) ∧
      placeCode site place q = .ok d ∧ r.code = d.code ++ last reg d.value.reg := by
  obtain ⟨_, _, hreg, first, rfl⟩ := (Emit.bind_eq_ok_iff _ _ p r).1 h
  obtain ⟨reg, named, rfl⟩ := (Emit.ofExcept_eq_ok_iff _ _).1 hreg
  obtain ⟨_, _, hothers, second, rfl⟩ := (Emit.bind_eq_ok_iff _ _ _ _).1 first
  obtain ⟨others, all, rfl⟩ := (Emit.ofExcept_eq_ok_iff _ _).1 hothers
  obtain ⟨taken, _, occupied, third, rfl⟩ := (Emit.bind_eq_ok_iff _ _ _ _).1 second
  obtain ⟨copied, back, hcopied, hback, rfl⟩ := (Emit.bind_eq_ok_iff _ _ _ _).1 third
  obtain ⟨w, l, hw, hl, rfl⟩ := (Emit.bind_eq_ok_iff _ _ _ _).1 hcopied
  obtain ⟨d, _, hd, hk, rfl⟩ := (Emit.bind_eq_ok_iff _ _ _ _).1 hw
  obtain ⟨empty, pools, used, -⟩ := occupy_eq_ok occupied
  obtain ⟨known, nonzero⟩ := namedReg_eq_ok named
  refine ⟨reg, taken.pool, d, known, nonzero, pools made, used reg List.mem_cons_self, ?_, hd, ?_⟩
  · intro m hm
    obtain ⟨x, hx, named⟩ := mapM_namedReg all m hm
    obtain ⟨known, nonzero⟩ := namedReg_eq_ok named
    exact ⟨x, known, nonzero, used x (List.mem_cons_of_mem _ hx)⟩
  · -- a place that does not fill a register has no code
    split at hk
    · exact absurd hk (Emit.fail_ne_ok _ _)
    · cases (Emit.pure_eq_ok_iff _ _).1 hk
      cases (Emit.lines_eq_ok_iff _ _).1 hl
      show [] ++ ([] ++ (taken.code ++ ((d.code ++ [] ++ last reg d.value.reg) ++ back.code))) = _
      rw [empty, code_releases hback]
      simp only [List.nil_append, List.append_nil]

/-! ## Runs to the end -/

/-- Whether a run carries out all of some code, to the instruction after its last one. -/
structure Finishes (code : List Instr) (base : Nat) (s t : State) : Prop where
  runs : ∃ n, Runs n s t
  pc : t.pc = addressOf (base + code.length)

/-- Whether a register is none of `k0` to `k3`, or at least none that the code sets. -/
def OutOfReach (code : List Instr) (x : Reg) : Prop := x.isScratch = true → ¬ Sets code x

/-- Whether the spared registers but the named one are as they were, as far as they are out of reach. -/
def SparesAll (code : List Instr) (reg : Reg) (spared : List Nat) (s t : State) : Prop :=
  ∀ m ∈ spared, ∃ x, Reg.ofNat? m = some x ∧ x ≠ .zero ∧ (x ≠ reg → OutOfReach code x → t.reg x = s.reg x)

/-- The code for the address of a place, with other lines after it: it leaves all registers in use alone. -/
theorem address_computed (hb : site.scope.types.Bounded) (sound : q.Sound) {d : Emitted Value}
    (hd : placeCode site place q = .ok d) {m : Linked} {base : Nat} {rest : List Line} (inside : Inside m.image base 0 s)
    (has : m.Has 0 (d.code ++ rest)) :
    ∃ f, place.found site (.of s) = some f ∧ ((∀ a ∈ f.loads, CanAccess s a) →
      ∃ t, Works m.image base s (codeSize d.code) t ∧ q.Takes d.value.reg d.pool ∧ t.reg d.value.reg = f.word ∧
        ∀ x, q.isUsed x = true → OutOfReach m.image x → t.reg x = s.reg x) := by
  obtain ⟨-, f, found, -⟩ := ends_placeCode (s := s) place sound d hd
  refine ⟨f, found, fun access => ?_⟩
  obtain ⟨t, works, given⟩ := arrives_placeCode (m := m) hb place sound found access
    (fun v q' t given => given) d 0 hd inside has.append.1
  rw [Nat.zero_add] at works
  refine ⟨t, works, given.toTakes, given.word, ?_⟩
  intro x used free
  cases scratch : x.isScratch with
  | true => exact works.kept x (free scratch)
  | false => exact given.keeps.regs x ⟨scratch, fun _ => used⟩

/-- A store that may go anywhere, as the last instruction of some code. -/
theorem goes_store {code : List Instr} {base k : Nat} {r pointer : Reg} (h : Inside code base k s)
    (hi : code[k]? = some (.sw r pointer 0)) (access : CanAccess s (s.reg pointer)) :
    ∃ t, Goes s t ∧ t.pc = addressOf (base + (k + 1)) ∧ t.reg = s.reg ∧
      t.memory = s.memory.write (s.reg pointer) (s.reg r) := by
  have address : s.reg pointer + Word.ofImm 0 = s.reg pointer := UInt32.add_zero _
  refine ⟨s.advance.store (s.reg pointer) (s.reg r), ⟨s.pc, .sw r pointer 0, ?_⟩, ?_, rfl, rfl⟩
  · rw [h.step_eq hi, State.exec, State.reg_advance, address]
    simp only [accessFault?_eq_none access]
  · rw [← Nat.add_assoc, ← addressOf_succ, ← h.pc]
    rfl

/-- For all registers in use before a statement, every place and all named and spared registers.  A copy to a place stores what
    the named register holds when the address is known, and that is what it held at the start if it is out of reach.  A copy to
    a register leaves the word of the place there.  Both leave the spared registers alone. -/
theorem registers_spared {map : MemoryMap} {program : Program} (context : Scope.ofProgram map program = .ok site.scope)
    (made : p.Made) :
    (∀ r, fromGprCode site place n spared p = .ok r → ∃ reg, Reg.ofNat? n = some reg ∧ reg ≠ .zero ∧
      ∀ (index : String → Nat) (base : Nat) (s : State), Inside (instrsOf index r.code) base 0 s →
        ∃ f, place.found site (.of s) = some f ∧ ((∀ a ∈ f.loads, CanAccess s a) → CanAccess s f.word →
          ∃ t, Finishes (instrsOf index r.code) base s t ∧ t.memory = s.memory.write f.word (t.reg reg) ∧
            (OutOfReach (instrsOf index r.code) reg → t.reg reg = s.reg reg) ∧
            SparesAll (instrsOf index r.code) reg spared s t)) ∧
    ∀ r, toGprCode site n place spared p = .ok r → ∃ reg, Reg.ofNat? n = some reg ∧ reg ≠ .zero ∧
      ∀ (index : String → Nat) (base : Nat) (s : State), Inside (instrsOf index r.code) base 0 s →
        ∃ f, place.found site (.of s) = some f ∧ ((∀ a ∈ f.loads, CanAccess s a) → CanAccess s f.word →
          ∃ t, Finishes (instrsOf index r.code) base s t ∧ t.memory = s.memory ∧ t.reg reg = s.memory.read f.word ∧
            SparesAll (instrsOf index r.code) reg spared s t) := by
  obtain ⟨collected, -⟩ := collected_of_ofProgram context
  constructor
  · intro r hr
    rw [fromGprCode_eq] at hr
    obtain ⟨reg, q, d, known, nonzero, made, used, all, hd, code⟩ := copy_parts made hr
    refine ⟨reg, known, nonzero, fun index base s inside => ?_⟩
    let m : Linked := ⟨instrsOf index r.code, index⟩
    have has : m.Has 0 (d.code ++ [.instr (.sw reg d.value.reg 0)]) := code ▸ Lies.self _
    obtain ⟨f, found, computed⟩ := address_computed (m := m) collected.bounded made.sound hd inside has
    refine ⟨f, found, fun access reached => ?_⟩
    obtain ⟨t, works, -, address, kept⟩ := computed access
    have store : m.image[codeSize d.code]? = some (.sw reg d.value.reg 0) := by
      have last := has.append.2.cons.1.head
      rwa [Nat.zero_add] at last
    have reached : CanAccess t (t.reg d.value.reg) := by
      rw [address]
      exact reached.of_size (by rw [works.memory])
    obtain ⟨u, goes, pc, regs, memory⟩ := goes_store works.inside store reached
    obtain ⟨steps, runs⟩ := works.runs
    refine ⟨u, ⟨⟨steps + 1, runs.trans goes.runs⟩, ?_⟩, ?_, ?_, ?_⟩
    · rw [pc, length_instrsOf, code, codeSize_append]
      rfl
    · rw [memory, works.memory, address, regs]
    · intro free
      rw [regs, kept reg used free]
    · intro k hk
      obtain ⟨x, named, other, inUse⟩ := all k hk
      refine ⟨x, named, other, fun _ free => ?_⟩
      rw [regs, kept x inUse free]
  · intro r hr
    rw [toGprCode_eq] at hr
    obtain ⟨reg, q, d, known, nonzero, made, used, all, hd, code⟩ := copy_parts made hr
    refine ⟨reg, known, nonzero, fun index base s inside => ?_⟩
    let m : Linked := ⟨instrsOf index r.code, index⟩
    have has : m.Has 0 (d.code ++ [.instr (.lw d.value.reg d.value.reg 0), .instr (.add reg d.value.reg .zero)]) :=
      code ▸ Lies.self _
    obtain ⟨f, found, computed⟩ := address_computed (m := m) collected.bounded made.sound hd inside has
    refine ⟨f, found, fun access reached => ?_⟩
    obtain ⟨t, works, taken, address, kept⟩ := computed access
    have last := has.append.2
    rw [Nat.zero_add] at last
    have from_address : t.reg d.value.reg + Word.ofImm 0 = f.word := by
      rw [address]
      exact UInt32.add_zero _
    obtain ⟨u, loaded, regs⟩ := works_load works.inside last.cons.1.head (by
      rw [from_address]
      exact reached.of_size (by rw [works.memory]))
    obtain ⟨v, moved, regs'⟩ := works_one loaded.inside last.cons.2.cons.1.head rfl
    rw [from_address, works.memory] at regs
    have word : u.reg d.value.reg = s.memory.read f.word := by
      rw [regs, setReg_self taken.nonzero]
    have whole := (works.trans loaded).trans moved
    refine ⟨v, ⟨whole.runs, ?_⟩, whole.memory, ?_, ?_⟩
    · rw [whole.inside.pc, length_instrsOf, code, codeSize_append]
      rfl
    · rw [regs', setReg_self nonzero]
      show u.reg d.value.reg + u.reg .zero = _
      rw [word, loaded.inside.zero]
      exact UInt32.add_zero _
    · intro k hk
      obtain ⟨x, named, other, inUse⟩ := all k hk
      refine ⟨x, named, other, fun ne free => ?_⟩
      -- the register of the address was not in use
      have apart : x ≠ d.value.reg := by
        rintro rfl
        have unused := taken.unused
        rw [inUse] at unused
        cases unused
      rw [regs', setReg_of_ne ne, regs, setReg_of_ne apart, kept x inUse free]

/-- The instructions that copy `k1` to a variable behind many others. -/
def farStore : List Instr := [.lui .k1 0, .ori .k1 .k1 0x8000, .addu .sig .bp .k1, .sw .k1 .sig 0]

/-- `x = gpr(25) except(3)`, where `x` is far from the start of the globals: register 3 is spared, but register 25 is `k1`, and
    what arrives in `x` is the distance of `x` and not the 7 that register 25 held. -/
theorem registers_spared_far :
    ∃ (site : Site) (p : RegPool) (r : Emitted Unit) (s t u : State), Scope.ofProgram {} farProgram = .ok site.scope ∧ p.Made ∧
      fromGprCode site (.var "x") 25 [3] p = .ok r ∧ instrsOf (fun _ => 0) r.code = farStore ∧ Inside farStore 5 0 s ∧
      s.reg .k1 = 7 ∧ s.reg ⟨3⟩ = 9 ∧ Finishes farStore 5 s t ∧ t.reg ⟨3⟩ = 9 ∧
      t.memory = s.memory.write 0x18000 (t.reg .k1) ∧ Finishes farStore 5 s u ∧ u.memory.read 0x18000 = 0x8000 := by
  let main : Signature := ⟨"main", none, {}, 0⟩
  have computed : (Scope.ofProgram {} farProgram).toOption.any (fun scope =>
      (scope.global? "x").any (fun x => decide (x.offset = 0x8000)) &&
        (fromGprCode ⟨scope, main, ""⟩ (.var "x") 25 [3] {}).toOption.any fun r =>
          decide (instrsOf (fun _ => 0) r.code = farStore)) = true := by
    decide +kernel
  obtain ⟨scope, context, computed⟩ := exists_ok_of_any computed
  obtain ⟨placed, computed⟩ := Bool.and_eq_true_iff.1 computed
  obtain ⟨x, hx, far⟩ := (Option.any_eq_true _ _).1 placed
  obtain ⟨r, hr, instrs⟩ := exists_ok_of_any computed
  have far : x.offset = 0x8000 := of_decide_eq_true far
  have instrs : instrsOf (fun _ => 0) r.code = farStore := of_decide_eq_true instrs
  let site : Site := ⟨scope, main, ""⟩
  have context : Scope.ofProgram {} farProgram = .ok site.scope := context
  let regs : Reg → Word := fun q => if q = .bp then 0x10000 else if q = .k1 then 7 else if q = ⟨3⟩ then 9 else 0
  have room : 4 * (5 + farStore.length) ≤ 0x20000 := by decide
  obtain ⟨s, inside, contents, size⟩ := exists_inside farStore (by decide) 5 regs rfl room (by decide)
  have bp : s.reg .bp = 0x10000 := by rw [contents]; rfl
  have named : site.named? (.of s) "x" = some ⟨x.ty, 0x18000, []⟩ := by
    unfold Site.named?
    rw [show site.self.frame.find? "x" = none from rfl, show site.scope.global? "x" = some x from hx]
    show some (Found.mk x.ty (s.reg .bp + UInt32.ofNat x.offset) []) = _
    rw [bp, far]
    rfl
  have reached : CanAccess s 0x18000 := by
    rw [CanAccess, size]
    decide
  -- the run of which the theorem tells
  obtain ⟨reg, known, -, runs⟩ := (registers_spared context .empty).1 r hr
  cases known
  obtain ⟨f, found, finishes⟩ := runs (fun _ => 0) 5 s (by rw [instrs]; exact inside)
  unfold Place.found at found
  obtain rfl : ⟨x.ty, 0x18000, []⟩ = f := Option.some.inj (named.symm.trans found)
  obtain ⟨t, done, stored, -, spares⟩ := finishes (List.forall_mem_nil _) reached
  obtain ⟨y, hy, -, kept⟩ := spares 3 List.mem_cons_self
  cases hy
  have third : t.reg ⟨3⟩ = s.reg ⟨3⟩ := kept (by decide) fun scratch => absurd scratch (by decide)
  -- the run that shows what is stored
  obtain ⟨m, before, regs_m⟩ := works_straight (c := [.lui .k1 0, .ori .k1 .k1 0x8000, .addu .sig .bp .k1]) inside
    ((Lies.self farStore).part 0 ⟨_, rfl⟩) rfl
  have address : m.reg .sig = 0x18000 := by
    rw [regs_m, contents]
    decide +kernel
  have word : m.reg .k1 = 0x8000 := by
    rw [regs_m, contents]
    decide +kernel
  obtain ⟨u, goes, pc, -, memory⟩ := goes_store before.inside rfl (by
    rw [address]
    exact reached.of_size (by rw [before.memory]))
  obtain ⟨steps, runs_m⟩ := before.runs
  rw [instrs] at done
  refine ⟨site, {}, r, s, t, u, context, .empty, hr, instrs, inside, ?_, ?_, done, ?_, stored,
    ⟨⟨_, runs_m.trans goes.runs⟩, pc⟩, ?_⟩
  · rw [contents]
    rfl
  · rw [contents]
    rfl
  · rw [third, contents]
    rfl
  · rw [memory, address, word, Memory.read_write _ (by decide) (by decide), if_pos rfl]

end M32.Lang
