/-
  Objects that are made one after another.

  1. `Orderly` runs leave the image as it was, return behind calls, and do not make objects that reach the end of the address
     space.
  2. A machine that stands outside of allotments goes on so, with the heap pointer where it was, or comes to an allotment
     (`Orderly.step`).  So the heap pointer only moves up in an orderly run, by the sizes of the objects that are made, and never
     past the limit (`Orderly.climbs`).
  3. `objects_allotted`: all objects of such a run lie in the heap, one after another.
-/
import M32.Proofs.Lang.Allotments
import M32.Proofs.Lang.HeapLimit

namespace M32.Lang

open Machine

variable {map : MemoryMap} {m : Linked} {k N n size : Nat} {s t u : State}

/-! ## Orderly runs -/

/-- Whether a machine comes to an allotment of so many bytes. -/
def ComesTo (m : Linked) (map : MemoryMap) (size : Nat) (s : State) : Prop := ∃ k, m.Makes map k size ∧ At m.image k s

/-- Whether a machine stands outside of allotments, behind the first lines. -/
def Stands (m : Linked) (map : MemoryMap) (s : State) : Prop := ∃ k, Clear m map k ∧ At m.image k s

/-- A run in which the image, the return addresses and the room for objects are what they should be. -/
structure Orderly (m : Linked) (map : MemoryMap) (N : Nat) (s : State) : Prop where
  /-- The image stays as it was. -/
  kept : ∀ n u, n ≤ N → Runs n s u → Holds m.image u
  /-- What goes on at an address that a register holds goes on behind a call. -/
  returned : ∀ n u v k i, n < N → Runs n s u → At m.image k u → m.image[k]? = some i → indirect i = true → Goes u v →
    ∃ j w, m.image[j]? = some (.jump true w) ∧ v.pc = addressOf (j + 1)
  /-- The address space does not end before an object. -/
  roomy : ∀ n u size, n < N → Runs n s u → ComesTo m map size u → (u.reg .hp).toNat + size < addressSpace

namespace Orderly

theorem mono (h : Orderly m map N s) (le : n ≤ N) : Orderly m map n s where
  kept j u hj := h.kept j u (Nat.le_trans hj le)
  returned j u v k i hj := h.returned j u v k i (Nat.lt_of_lt_of_le hj le)
  roomy j u size hj := h.roomy j u size (Nat.lt_of_lt_of_le hj le)

/-- The rest of an orderly run. -/
theorem rest (h : Orderly m map (n + N) s) (runs : Runs n s t) : Orderly m map N t where
  kept j u hj hr := h.kept (n + j) u (Nat.add_le_add_left hj n) (runs.trans hr)
  returned j u v k i hj hr := h.returned (n + j) u v k i (Nat.add_lt_add_left hj n) (runs.trans hr)
  roomy j u size hj hr := h.roomy (n + j) u size (Nat.add_lt_add_left hj n) (runs.trans hr)

/-- A step that is not part of an allotment leads outside of allotments, and leaves the heap pointer alone. -/
theorem step (tight : Sealed m map) (h : Orderly m map (n + 1) s) (stands : Stands m map s)
    (none_here : ∀ size, ¬ ComesTo m map size s) (goes : Goes s t) : Stands m map t ∧ t.reg .hp = s.reg .hp := by
  obtain ⟨k, clear, hk⟩ := stands
  obtain ⟨j, inside, hj⟩ := goes.placed hk.toHolds hk.zero
  obtain rfl := hk.unique hj clear.inside (Nat.le_of_lt inside)
  have hi := List.getElem?_eq_getElem inside
  have apart : ∀ size, ¬ m.Makes map k size := fun size makes => none_here size ⟨k, makes, hk⟩
  have changes := goes.changes hk hi
  have holds := h.kept 1 t (Nat.le_add_left 1 n) goes.runs
  have reaches {l : Nat} (clear' : Clear m map l) (pc : t.pc = addressOf l) : Stands m map t :=
    ⟨l, clear', holds, pc, changes.zero.trans hk.zero⟩
  constructor
  · cases direct : indirect m.image[k] with
    | true =>
      obtain ⟨j, w, call, pc⟩ := h.returned 0 s t k _ (Nat.succ_pos n) (.refl s) hk hi direct goes
      exact reaches (tight.calls j w call) pc
    | false =>
      rcases goes.leads hk hi direct with pc | ⟨o, ho, far⟩ | ⟨link, w, jump, pc⟩
      · exact reaches (clear.next inside apart) pc
      · obtain ⟨l, hl, clear'⟩ := tight.branches k _ o clear.after hi ho
        exact reaches clear' (far l hl)
      · obtain ⟨l, hl, clear'⟩ := tight.jumps k link w clear.after (hi.trans (congrArg some jump))
        exact reaches clear' (pc.trans hl)
  · refine changes.regs .hp fun sets => ?_
    obtain ⟨j, size, makes, le, lt⟩ := tight.allotted k _ clear.after hi (settled?_hp sets)
    rcases clear.apart j size makes with behind | before
    · obtain rfl := Nat.le_antisymm le behind
      exact apart size makes
    · omega

/-- An orderly run from an allotment that ends outside of allotments goes through it, and the heap pointer moves past the object. -/
theorem past (h : Orderly m map n s) (makes : m.Makes map k size) (hk : At m.image k s) (base : map.heapBase ≤ s.reg .hp)
    (runs : Runs n s u) (some_steps : 0 < n) (stands : Stands m map u) :
    ∃ d e t, n = d + e ∧ 0 < d ∧ Runs d s t ∧ Runs e t u ∧ At m.image (k + codeSize (allotment map size)) t ∧
      (t.reg .hp).toNat = (s.reg .hp).toNat + size ∧ map.heapBase ≤ t.reg .hp ∧ t.reg .hp ≤ map.heapLimit := by
  have some_lines := two_lt_codeSize_allotment map size
  have last := makes.past_le
  -- the run does not end in the allotment
  have amid {j lo hi : Nat} (quiet : Quiet lo hi n s u) (past : k + n ≤ j) (before : j < k + codeSize (allotment map size))
      (pc : u.pc = addressOf j) : False := by
    obtain ⟨l, clear, hl⟩ := stands
    obtain rfl := hl.unique (quiet.at_image hk pc) clear.inside (by omega)
    have apart := clear.apart k size makes
    omega
  have enough := h.roomy 0 s size some_steps (.refl s) ⟨k, makes, hk⟩
  obtain ⟨-, goes_on⟩ := (allots makes.has hk base).precise enough
  by_cases stops : Stops k (k + codeSize (allotment map size)) s (Word.ofImm Signal.heapLimit)
  · obtain ⟨j, past, before, pc, quiet⟩ := stops.place runs
    exact (amid quiet past before pc).elim
  obtain ⟨t, quiet, at_t, moved, base', limit', -⟩ := goes_on stops
  rcases Nat.lt_or_ge n (k + codeSize (allotment map size) - k - 2) with early | late
  · obtain ⟨j, past, before, pc, quiet⟩ := quiet.place early runs
    exact (amid quiet past before pc).elim
  obtain ⟨e, rfl⟩ := Nat.exists_eq_add_of_le late
  obtain ⟨_, first, rest⟩ := runs.split
  obtain rfl := first.unique quiet.runs
  exact ⟨_, e, _, rfl, by omega, first, rest, at_t, moved, base', limit'⟩

/-- In an orderly run the heap pointer moves up, and not past the limit.  The next object begins where the last one ends. -/
theorem climbs (tight : Sealed m map) (h : Orderly m map n s) (stands : Stands m map s) (base : map.heapBase ≤ s.reg .hp)
    (limit : s.reg .hp ≤ map.heapLimit) (runs : Runs n s u) (stands' : Stands m map u) :
    s.reg .hp ≤ u.reg .hp ∧ u.reg .hp ≤ map.heapLimit ∧
      ∀ size, ComesTo m map size s → 0 < n → (s.reg .hp).toNat + size ≤ (u.reg .hp).toNat := by
  -- on the steps that are left, since a piece that makes an object takes many of them at once
  induction n using Nat.strong_induction_on generalizing s with
  | _ n ih =>
  rcases Nat.eq_zero_or_pos n with rfl | some_steps
  · cases runs
    exact ⟨UInt32.le_refl _, limit, fun size _ hn => absurd hn (Nat.lt_irrefl 0)⟩
  by_cases here : ∃ size, ComesTo m map size s
  · obtain ⟨size, k, makes, hk⟩ := here
    obtain ⟨d, e, t, rfl, some_steps, first, rest, at_t, moved, base', limit'⟩ := h.past makes hk base runs some_steps stands'
    have clear := tight.clear makes
    obtain ⟨up, below, -⟩ := ih e (by omega) (h.rest first) ⟨_, clear.past makes, at_t⟩ base' limit' rest
    rw [UInt32.le_iff_toNat_le] at up ⊢
    refine ⟨by omega, below, fun size' comes _ => ?_⟩
    obtain ⟨j, makes', hj⟩ := comes
    obtain rfl := hk.unique hj clear.inside (tight.clear makes').inside
    have some_lines := two_lt_codeSize_allotment map size
    obtain ⟨-, rfl⟩ := makes.unique makes' (Nat.le_refl _) (by omega)
    omega
  · have none_here : ∀ size, ¬ ComesTo m map size s := fun size hs => here ⟨size, hs⟩
    obtain ⟨n, rfl⟩ : ∃ n', n = n' + 1 := ⟨n - 1, by omega⟩
    cases runs with
    | @step _ _ t _ goes rest =>
      obtain ⟨stands_t, same⟩ := h.step tight stands none_here goes
      have later : Orderly m map n t := Orderly.rest (n := 1) (by rwa [Nat.add_comm 1]) goes.runs
      rw [← same] at base limit ⊢
      obtain ⟨up, below, -⟩ := ih n (Nat.lt_succ_self n) later stands_t base limit rest
      exact ⟨up, below, fun size hs => absurd hs (none_here size)⟩

end Orderly

/-! ## Runs that are put together -/

/-- An allotment begins with one of two instructions. -/
theorem not_comesTo {i : Instr} (hk : At m.image k s) (hi : m.image[k]? = some i) (other : ∀ imm, i ≠ .addi .hp .hp imm)
    (other' : ∀ high, i ≠ .lui .k0 high) (size : Nat) : ¬ ComesTo m map size s := by
  rintro ⟨j, makes, hj⟩
  have inside := (List.getElem?_eq_some_iff.1 hi).1
  have last := makes.past_le
  obtain rfl := hk.unique hj (Nat.le_of_lt inside) (by omega)
  obtain ⟨i', hi', begins⟩ := makes.first
  obtain rfl := Option.some.inj (hi'.symm.trans hi)
  rcases begins with ⟨imm, he⟩ | ⟨high, he⟩
  · exact other imm he
  · exact other' high he

namespace Orderly

theorem refl (holds : Holds m.image s) : Orderly m map 0 s where
  kept j u hj hr := by
    obtain rfl := Nat.le_zero.1 hj
    cases hr
    exact holds
  returned j u v k i hj := absurd hj (Nat.not_lt_zero j)
  roomy j u size hj := absurd hj (Nat.not_lt_zero j)

/-- A step outside of allotments, and an orderly run. -/
theorem cons {i : Instr} (hk : At m.image k s) (hi : m.image[k]? = some i) (direct : indirect i = false)
    (none_here : ∀ size, ¬ ComesTo m map size s) (goes : Goes s t) (h : Orderly m map N t) : Orderly m map (N + 1) s := by
  refine ⟨fun j u hj hr => ?_, fun j u v k' i' hj hr hu hi' register goes' => ?_, fun j u size hj hr comes => ?_⟩
  · cases hr with
    | refl => exact hk.toHolds
    | step first rest =>
      obtain rfl := goes.unique first
      exact h.kept _ u (Nat.le_of_succ_le_succ hj) rest
  · cases hr with
    | refl =>
      have inside := (List.getElem?_eq_some_iff.1 hi).1
      have inside' := (List.getElem?_eq_some_iff.1 hi').1
      obtain rfl := hk.unique hu (Nat.le_of_lt inside) (Nat.le_of_lt inside')
      obtain rfl := Option.some.inj (hi.symm.trans hi')
      rw [direct] at register
      cases register
    | step first rest =>
      obtain rfl := goes.unique first
      exact h.returned _ u v k' i' (Nat.lt_of_succ_lt_succ hj) rest hu hi' register goes'
  · cases hr with
    | refl => exact absurd comes (none_here size)
    | step first rest =>
      obtain rfl := goes.unique first
      exact h.roomy _ u size (Nat.lt_of_succ_lt_succ hj) rest comes

/-- An allotment for which there is room, and an orderly run. -/
theorem through {d : Nat} (makes : m.Makes map k size) (hk : At m.image k s) (room : (s.reg .hp).toNat + size < addressSpace)
    (quiet : Quiet k (k + codeSize (allotment map size)) d s t) (h : Orderly m map N t) : Orderly m map (d + N) s := by
  -- where the machine is before the end of the allotment
  have early {j : Nat} {u : State} (hj : j < d) (hr : Runs j s u) :
      ∃ i, k + j ≤ i ∧ i < k + codeSize (allotment map size) ∧ At m.image i u := by
    obtain ⟨i, lower, upper, pc, before⟩ := quiet.place hj hr
    exact ⟨i, lower, upper, before.at_image hk pc⟩
  -- and after it
  have late {j : Nat} {u : State} (hj : d ≤ j) (hr : Runs j s u) : Runs (j - d) t u := by
    obtain ⟨e, rfl⟩ := Nat.exists_eq_add_of_le hj
    obtain ⟨v, first, rest⟩ := hr.split
    obtain rfl := first.unique quiet.runs
    rwa [Nat.add_sub_cancel_left]
  have last := makes.past_le
  refine ⟨fun j u hj hr => ?_, fun j u v k' i' hj hr hu hi' register goes => ?_, fun j u size' hj hr comes => ?_⟩
  · rcases Nat.lt_or_ge j d with before | past
    · obtain ⟨i, -, -, hi⟩ := early before hr
      exact hi.toHolds
    · exact h.kept (j - d) u (by omega) (late past hr)
  · rcases Nat.lt_or_ge j d with before | past
    · obtain ⟨i, lower, upper, hi⟩ := early before hr
      have inside := (List.getElem?_eq_some_iff.1 hi').1
      obtain rfl := hi.unique hu (by omega) (Nat.le_of_lt inside)
      rw [(makes.stays (by omega) upper hi').1] at register
      cases register
    · exact h.returned (j - d) u v k' i' (by omega) (late past hr) hu hi' register goes
  · rcases Nat.lt_or_ge j d with before | past
    · obtain ⟨i, lower, upper, hi⟩ := early before hr
      obtain ⟨i', makes', hi'⟩ := comes
      have last' := makes'.past_le
      obtain rfl := hi.unique hi' (by omega) (by omega)
      obtain ⟨rfl, rfl⟩ := makes.unique makes' (by omega) upper
      obtain rfl : j = 0 := by omega
      cases hr
      exact room
    · exact h.roomy (j - d) u size' (by omega) (late past hr) comes

end Orderly

/-! ## Objects -/

/-- Whether a run of `N` steps makes an object after `n` of them: it comes to an allotment there, with the heap pointer at the
    object, and gets behind the allotment. -/
def MakesAt (m : Linked) (map : MemoryMap) (N : Nat) (s : State) (n : Nat) (b : Block) : Prop :=
  ∃ k u v d, m.Makes map k b.size ∧ Runs n s u ∧ At m.image k u ∧ b.start = (u.reg .hp).toNat ∧ n + d ≤ N ∧ Runs d u v ∧
    At m.image (k + codeSize (allotment map b.size)) v

section

variable {b b' : Block} {n' : Nat} (tight : Sealed m map) (h : Orderly m map N s) (stands : Stands m map s)
  (base : map.heapBase ≤ s.reg .hp) (limit : s.reg .hp ≤ map.heapLimit)

include tight h stands base limit

/-- At an allotment of an orderly run the heap pointer is in the heap. -/
theorem Orderly.in_heap (le : n ≤ N) (runs : Runs n s u) (makes : m.Makes map k size) (hk : At m.image k u) :
    map.heapBase ≤ u.reg .hp ∧ u.reg .hp ≤ map.heapLimit := by
  obtain ⟨up, below, -⟩ := (h.mono le).climbs tight stands base limit runs ⟨k, tight.clear makes, hk⟩
  exact ⟨UInt32.le_trans base up, below⟩

/-- An object of an orderly run lies in the heap. -/
theorem Orderly.object_in_heap (made : MakesAt m map N s n b) :
    map.heapBase.toNat ≤ b.start ∧ b.start + b.size ≤ map.heapLimit.toNat := by
  obtain ⟨k, u, v, d, makes, runs, hk, start, le, past, hv⟩ := made
  obtain ⟨base', limit'⟩ := h.in_heap tight stands base limit (by omega) runs makes hk
  have clear := tight.clear makes
  have some_lines := two_lt_codeSize_allotment map b.size
  have some_steps := past.pos_of_ne hk hv ⟨clear.inside, makes.past_le⟩ (by omega)
  obtain ⟨-, below, step⟩ := ((h.mono le).rest runs).climbs tight ⟨k, clear, hk⟩ base' limit' past ⟨_, clear.past makes, hv⟩
  have ends := step _ ⟨k, makes, hk⟩ some_steps
  rw [UInt32.le_iff_toNat_le] at base' below
  omega

/-- An object that is made later lies behind. -/
theorem Orderly.objects_apart (made : MakesAt m map N s n b) (made' : MakesAt m map N s n' b') (later : n < n') :
    b.start + b.size ≤ b'.start := by
  obtain ⟨k, u, -, -, makes, runs, hk, start, -⟩ := made
  obtain ⟨k', u', -, d, makes', runs', hk', start', le, -⟩ := made'
  obtain ⟨base', limit'⟩ := h.in_heap tight stands base limit (by omega) runs makes hk
  obtain ⟨e, rfl⟩ := Nat.exists_eq_add_of_le (Nat.le_of_lt later)
  obtain ⟨w, first, between⟩ := runs'.split
  obtain rfl := first.unique runs
  obtain ⟨-, -, step⟩ := ((h.mono (show n + e ≤ N by omega)).rest runs).climbs tight ⟨k, tight.clear makes, hk⟩ base' limit'
    between ⟨k', tight.clear makes', hk'⟩
  have ends := step _ ⟨k, makes, hk⟩ (by omega)
  omega

end

/-- In every program that is compiled, and wherever its code lies: a statement that makes a new object stores the heap pointer and
    takes the size of the object from the heap, and is stopped if the heap pointer has moved past the limit, modulo `2^32`.  If no
    statement copies to the register of the heap pointer, all objects that are made in an orderly run lie in the heap, one after
    another. -/
theorem objects_allotted {p : Program} {scope : Scope} {code : List Line} (context : Scope.ofProgram map p = .ok scope)
    (compiled : programCode scope p = .ok code) :
    (∀ (site : Site) (pool : RegPool) (target : Place) (ty : Ty) (r : Emitted Unit), site.scope = scope → pool.Made →
      newCode site target ty pool = .ok r → ∃ size before, newSize site ty = .ok size ∧ r.code = before ++ allotment map size ∧
        ∀ (m : Linked) (k : Nat) s, m.Has k r.code → At m.image k s → map.heapBase ≤ s.reg .hp →
          ∃ f, target.found site (.of s) = some f ∧ ((∀ a ∈ f.loads, CanAccess s a) → CanStore s f.word →
            ∃ n u, Runs n s u ∧ At m.image (k + codeSize before) u ∧ u.reg .hp = s.reg .hp ∧
              u.memory = s.memory.write f.word (s.reg .hp) ∧
              Allots map size m.image (k + codeSize before) (k + codeSize r.code) u)) ∧
    ((∀ f ∈ p.functions, SparesHeap f.body) → ∀ index : String → Nat,
      (∀ (j : Nat) name, code[j]? = some (.label name) → index name = codeSize (code.take j)) → ∀ (N : Nat) s,
        Orderly ⟨instrsOf index code, index⟩ map N s → Stands ⟨instrsOf index code, index⟩ map s → map.heapBase ≤ s.reg .hp →
          s.reg .hp ≤ map.heapLimit →
            (∀ n b, MakesAt ⟨instrsOf index code, index⟩ map N s n b →
              map.heapBase.toNat ≤ b.start ∧ b.start + b.size ≤ map.heapLimit.toNat) ∧
            ∀ n b n' b', MakesAt ⟨instrsOf index code, index⟩ map N s n b → MakesAt ⟨instrsOf index code, index⟩ map N s n' b' →
              n < n' → b.start + b.size ≤ b'.start) := by
  obtain ⟨collected, -⟩ := collected_of_ofProgram context
  refine ⟨?_, fun spares index labels N s h stands base limit => ?_⟩
  · obtain rfl := collected.map
    rintro site pool target ty r rfl made hr
    exact new_allots collected.bounded made.sound hr
  · have tight := sealed_of_programCode context compiled spares labels
    exact ⟨fun n b made => h.object_in_heap tight stands base limit made,
      fun n b n' b' made made' later => h.objects_apart tight stands base limit made made' later⟩

/-- A program that makes two objects of four bytes, and then one that reaches beyond the end of the address space. -/
def heapProgram : Program :=
  let small : Ty := .pointer (.scalar .int)
  let large : Ty := .pointer (.array (.scalar .int) 1073741823)
  ⟨[.global ⟨small, "p"⟩, .global ⟨large, "q"⟩, .function ⟨entryName, none, [], [],
    [.assign (.var "p") (.new small), .assign (.var "p") (.new small), .assign (.var "q") (.new large)]⟩]⟩

/-- The instructions of that program.  The objects are made from instructions 9, 18 and 27 on. -/
def heapImage : List Instr :=
  [.lui .bp 1, .ori .bp .bp 0, .lui .sp 256, .ori .sp .sp 0, .lui .hp 16, .ori .hp .hp 0, .jump false 7,
    .addi .sig .bp 0, .sw .hp .sig 0, .addi .hp .hp 4] ++ testHeap {} ++
  [.addi .sig .bp 0, .sw .hp .sig 0, .addi .hp .hp 4] ++ testHeap {} ++
  [.addi .sig .bp 4, .sw .hp .sig 0, .lui .k0 0xFFFF, .ori .k0 .k0 0xFFFC, .addu .hp .hp .k0] ++ testHeap {} ++
  [.addi .sig .zero 1, .syscall]

theorem sparesHeap_assigns {stmts : List Stmt} (h : ∀ s ∈ stmts, ∃ target source, s = .assign target source) :
    SparesHeap stmts := by
  intro path source spared
  induction path generalizing stmts with
  | nil =>
    intro found
    obtain ⟨_, _, he⟩ := h _ (List.mem_of_mem_head? found)
    cases he
  | cons turn path ih =>
    intro found
    obtain ⟨ahead, turned, found⟩ := Option.bind_eq_some_iff.1 found
    cases stmts with
    | nil => cases turn <;> cases turned
    | cons s rest =>
      obtain ⟨_, _, rfl⟩ := h s List.mem_cons_self
      cases turn with
      | next =>
        cases turned
        exact ih (fun s hs => h s (List.mem_cons_of_mem _ hs)) found
      | body => cases turned
      | other => cases turned

/-- The first two objects of that program. -/
theorem exists_two_objects : ∃ (N n : Nat) (s : State), Linked.Makes ⟨heapImage, fun _ => 7⟩ {} 9 4 ∧
    Orderly ⟨heapImage, fun _ => 7⟩ {} N s ∧ At heapImage 9 s ∧ s.reg .hp = 0x100000 ∧ 0 < n ∧
    MakesAt ⟨heapImage, fun _ => 7⟩ {} N s 0 ⟨0x100000, 4⟩ ∧ MakesAt ⟨heapImage, fun _ => 7⟩ {} N s n ⟨0x100004, 4⟩ := by
  let m : Linked := ⟨heapImage, fun _ => 7⟩
  have first : m.Makes {} 9 4 := ⟨by decide, (Lies.self heapImage).part 9 (by decide +kernel)⟩
  have second : m.Makes {} 18 4 := ⟨by decide, (Lies.self heapImage).part 18 (by decide +kernel)⟩
  have fits : 4 * heapImage.length ≤ 0x20000 := by decide
  obtain ⟨s, hs, contents, room⟩ := exists_at heapImage (by decide +kernel) 9
    (fun q => if q = .hp then 0x100000 else if q = .bp then 0x10000 else 0) rfl fits (by decide)
  have hp_s : s.reg .hp = 0x100000 := by rw [contents]; rfl
  have bp_s : s.reg .bp = 0x10000 := by rw [contents]; rfl
  have length : codeSize (allotment {} 4) = 7 := by decide
  -- the first object
  obtain ⟨stops, goes_on⟩ := (allots first.has hs (by rw [hp_s]; decide)).precise (by rw [hp_s]; decide)
  obtain ⟨t, quiet, ht, hp_t, -, -, only⟩ := goes_on (mt stops.1 (by rw [hp_s]; decide))
  -- the address of the second one is stored
  have ht' : At heapImage 16 t := by rwa [length] at ht
  obtain ⟨u, one, hu, regs_u⟩ := quiet_one (i := .addi .sig .bp 0) ht'.inside rfl rfl
  have goes : Goes t u := by
    cases one.runs with
    | step goes rest =>
      cases rest
      exact goes
  have hu : At heapImage 17 u := hu.at_image ht' one.same.2.2.1
  have target : u.reg .sig + Word.ofImm 0 = 0x10000 := by
    rw [regs_u, setReg_self (by decide), only .bp (by decide), bp_s]; rfl
  have access : CanStore u (u.reg .sig + Word.ofImm 0) := by
    rw [target]
    refine ⟨⟨rfl, ?_⟩, ?_⟩
    · rw [one.memory, quiet.memory, room]; decide
    · rw [hu.imageEnd]; decide
  obtain ⟨v, goes', hv, same, regs_v, -, -⟩ := hu.inside.step_store (r := .hp) rfl access
  have hv : At heapImage 18 v := hv.at_image hu same.imageEnd
  have hp_v : v.reg .hp = 0x100004 := by
    apply UInt32.toNat_inj.1
    rw [regs_v, regs_u, setReg_of_ne (by decide), hp_t, hp_s]; rfl
  -- the second object
  obtain ⟨stops', goes_on'⟩ := (allots second.has hv (by rw [hp_v]; decide)).precise (by rw [hp_v]; decide)
  obtain ⟨x, quiet', hx, -, -, -, -⟩ := goes_on' (mt stops'.1 (by rw [hp_v]; decide))
  have orderly : Orderly m {} (5 + ((5 + 0) + 1 + 1)) s := by
    refine .through first hs (by rw [hp_s]; decide) (by rwa [length] at quiet ⊢) ?_
    refine .cons ht' rfl rfl (not_comesTo ht' rfl nofun nofun) goes ?_
    refine .cons hu rfl rfl (not_comesTo hu rfl nofun nofun) goes' ?_
    exact .through second hv (by rw [hp_v]; decide) (by rwa [length] at quiet' ⊢) (.refl hx.toHolds)
  have run : Runs 5 s t := by
    rw [length] at quiet
    exact quiet.runs
  have run' : Runs 5 v x := by
    rw [length] at quiet'
    exact quiet'.runs
  refine ⟨_, 7, s, first, orderly, hs, hp_s, by decide, ?_, ?_⟩
  · exact ⟨9, s, t, 5, first, .refl s, hs, by rw [hp_s]; rfl, by decide, run, ht⟩
  · have runs := run.trans (goes.runs.trans goes'.runs)
    exact ⟨18, v, x, 5, second, runs, hv, by rw [hp_v]; rfl, by decide, run', hx⟩

/-- The site of the statements of that program. -/
def heapSite (scope : Scope) : Site := ⟨scope, ⟨entryName, none, {}, 0⟩, ""⟩

/-- The type of its last object. -/
def hugeTy : Ty := .pointer (.array (.scalar .int) 1073741823)

/-- That program is compiled to that image, with the label at instruction 7.  The code for the last object comes at the end. -/
theorem heapProgram_compiled : ∃ scope code r q, Scope.ofProgram {} heapProgram = .ok scope ∧
    programCode scope heapProgram = .ok code ∧ newCode (heapSite scope) (.var "q") hugeTy {} = .ok r ∧ scope.global? "q" = some q ∧
    instrsOf (fun _ => 7) code = heapImage ∧
    (∀ (j : Nat) name, code[j]? = some (.label name) → 7 = codeSize (code.take j)) ∧
    newSize (heapSite scope) hugeTy = .ok 4294967292 ∧ instrsOf (fun _ => 7) r.code = (heapImage.drop 25).take 11 ∧
    q.offset = 4 := by
  have computed : (Scope.ofProgram {} heapProgram).toOption.any (fun scope =>
      (programCode scope heapProgram).toOption.any (fun code => decide (instrsOf (fun _ => 7) code = heapImage) &&
        (List.range code.length).all fun j => (code[j]?.bind Line.label?).all fun _ => decide (7 = codeSize (code.take j))) &&
      (newSize (heapSite scope) hugeTy).toOption.any (fun size => decide (size = 4294967292)) &&
      (newCode (heapSite scope) (.var "q") hugeTy {}).toOption.any (fun r =>
        decide (instrsOf (fun _ => 7) r.code = (heapImage.drop 25).take 11)) &&
      (scope.global? "q").any fun x => decide (x.offset = 4)) = true := by
    decide +kernel
  obtain ⟨scope, hs, computed⟩ := exists_ok_of_any computed
  simp only [Bool.and_eq_true] at computed
  obtain ⟨⟨⟨compiled, sized⟩, made⟩, named⟩ := computed
  obtain ⟨code, hc, compiled⟩ := exists_ok_of_any compiled
  obtain ⟨size, hn, sized⟩ := exists_ok_of_any sized
  obtain ⟨r, hr, made⟩ := exists_ok_of_any made
  obtain ⟨q, hq, named⟩ := (Option.any_eq_true _ _).1 named
  obtain ⟨image, label⟩ := Bool.and_eq_true_iff.1 compiled
  obtain rfl := of_decide_eq_true sized
  refine ⟨scope, code, r, q, hs, hc, hr, hq, of_decide_eq_true image, fun j name hj => ?_, hn, of_decide_eq_true made,
    of_decide_eq_true named⟩
  have place := List.all_eq_true.1 label j (List.mem_range.2 (List.getElem?_eq_some_iff.1 hj).1)
  rw [hj] at place
  exact of_decide_eq_true place

theorem sparesHeap_heapProgram : ∀ f ∈ heapProgram.functions, SparesHeap f.body := by
  intro f hf
  rw [List.mem_singleton.1 hf]
  refine sparesHeap_assigns fun s hs => ?_
  simp only [List.mem_cons, List.not_mem_nil, or_false] at hs
  rcases hs with rfl | rfl | rfl <;> exact ⟨_, _, rfl⟩

/-- The first two objects of that program lie one after the other.  The third one is made although there is no room for it, and the
    heap pointer wraps around. -/
theorem objects_allotted_wrapping :
    ∃ scope code, Scope.ofProgram {} heapProgram = .ok scope ∧ programCode scope heapProgram = .ok code ∧
      instrsOf (fun _ => 7) code = heapImage ∧
      (∃ N n s b b', MakesAt ⟨heapImage, fun _ => 7⟩ {} N s 0 b ∧ MakesAt ⟨heapImage, fun _ => 7⟩ {} N s n b' ∧
        b.start = 0x100000 ∧ b'.start = 0x100004 ∧ b.start + b.size ≤ b'.start ∧ b'.start + b'.size ≤ 0x800000) ∧
      ∃ n s t, At heapImage 25 s ∧ s.reg .hp = 0x100000 ∧ Runs n s t ∧ At heapImage 36 t ∧ (t.reg .hp).toNat = 0xFFFFC := by
  obtain ⟨scope, code, r, q, context, compiled, made, named, image, labels, sized, lines, place⟩ := heapProgram_compiled
  obtain ⟨stops, apart⟩ := objects_allotted context compiled
  refine ⟨scope, code, context, compiled, image, ?_, ?_⟩
  · obtain ⟨N, n, s, makes, orderly, hk, hp, some_steps, first, second⟩ := exists_two_objects
    rw [← image] at makes orderly hk first second
    have clear := (sealed_of_programCode context compiled sparesHeap_heapProgram labels).clear makes
    obtain ⟨inside, apart⟩ := apart sparesHeap_heapProgram _ labels N s orderly ⟨9, clear, hk⟩ (by rw [hp]; decide)
      (by rw [hp]; decide)
    have bounds := inside _ _ second
    have behind := apart _ _ _ _ first second some_steps
    rw [image] at first second
    exact ⟨N, n, s, _, _, first, second, rfl, rfl, behind, bounds.2⟩
  · obtain ⟨size, before, known, code_r, allots⟩ := stops (heapSite scope) {} (.var "q") hugeTy r rfl .empty made
    obtain rfl := Except.ok.inj (known.symm.trans sized)
    have length : codeSize (allotment {} 4294967292) = 9 := by decide +kernel
    have whole : codeSize r.code = 11 := by
      rw [← length_instrsOf fun _ => 7, lines]
      rfl
    have start : codeSize before = 2 := by
      rw [code_r, codeSize_append, length] at whole
      omega
    -- a machine that comes to the last object
    have fits : 4 * heapImage.length ≤ 0x20000 := by decide
    obtain ⟨s, hs, contents, room⟩ := exists_at heapImage (by decide +kernel) 25
      (fun q => if q = .hp then 0x100000 else if q = .bp then 0x10000 else 0) rfl fits (by decide)
    have hp_s : s.reg .hp = 0x100000 := by rw [contents]; rfl
    have bp_s : s.reg .bp = 0x10000 := by rw [contents]; rfl
    have has : Linked.Has ⟨heapImage, fun _ => 7⟩ 25 r.code := by
      show Lies _ _ _
      rw [lines]
      exact (Lies.self heapImage).part 25 (by decide +kernel)
    obtain ⟨f, hf, goes⟩ := allots ⟨heapImage, fun _ => 7⟩ 25 s has hs (by rw [hp_s]; decide)
    have found : (Place.var "q").found (heapSite scope) (.of s) = some ⟨q.ty, 0x10004, []⟩ := by
      unfold Place.found Site.named?
      rw [show (heapSite scope).self.frame.find? "q" = none from rfl, show (heapSite scope).scope.global? "q" = some q from named]
      show some (Found.mk q.ty (s.reg .bp + UInt32.ofNat q.offset) []) = _
      rw [bp_s, place]
      rfl
    obtain rfl := Option.some.inj (hf.symm.trans found)
    have can : CanStore s 0x10004 := by
      refine ⟨⟨rfl, ?_⟩, ?_⟩
      · rw [room]; decide
      · rw [hs.imageEnd]; decide
    obtain ⟨n, u, runs, at_u, hp_u, -, here⟩ := goes (fun _ ha => absurd ha List.not_mem_nil) can
    rw [start, whole] at here
    rw [hp_s] at hp_u
    obtain ⟨t, quiet, arrived, moved, -⟩ := here.goes_on (mt here.stops_iff.1 (by rw [hp_u]; decide))
    rw [hp_u] at moved
    exact ⟨_, s, t, hs, hp_s, runs.trans quiet.runs, arrived, moved⟩

end M32.Lang
