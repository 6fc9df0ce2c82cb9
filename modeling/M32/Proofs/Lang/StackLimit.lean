/-
  Code that reserves stack, and the limit of the stack.

  1. `Reserves` says what a machine does that comes to code that reserves stack: the stack pointer moves modulo `2^32`, and what
     is compared with the limit is where it has moved.
  2. `stack_reserved`: so it is at every call and in every first function.  As long as no more bytes are needed than there are
     below the stack pointer, this catches all that crosses the limit, and nothing else.
-/
import M32.Proofs.Lang.Code.Limits

namespace M32.Lang

open Machine

/-! ## What machines do there -/

/-- What happens when a machine comes to code that reserves some bytes, from instruction `k` on and before `l`. -/
structure Reserves (map : MemoryMap) (need : Nat) (image : List Instr) (k l : Nat) (s : State) : Prop where
  /-- The signal is raised, before anything is stored, if the stack pointer is below the limit when it has moved modulo `2^32`,
      and only then. -/
  stops_iff : Stops k l s (Word.ofImm Signal.stackLimit) ↔
    ((s.reg .sp).toNat - need : Int) % 2 ^ 32 < map.stackLimit.toNat
  /-- Otherwise the next instruction follows, with nothing changed but the stack pointer and `k0`. -/
  goes_on : ¬ Stops k l s (Word.ofImm Signal.stackLimit) → ∃ n t, Quiet k l n s t ∧ At image l t ∧
    ((t.reg .sp).toNat : Int) = ((s.reg .sp).toNat - need : Int) % 2 ^ 32 ∧ Only [.sp, .k0] s.reg t.reg
  /-- If no more bytes are needed than there are below the stack pointer, the signal is raised exactly if the stack pointer would
      be below the limit, and all that is reserved otherwise lies in the stack. -/
  precise : need ≤ (s.reg .sp).toNat →
    (Stops k l s (Word.ofImm Signal.stackLimit) ↔ ((s.reg .sp).toNat - need : Int) < map.stackLimit.toNat) ∧
    (¬ Stops k l s (Word.ofImm Signal.stackLimit) → ∃ n t, Quiet k l n s t ∧ At image l t ∧
      (t.reg .sp).toNat + need = (s.reg .sp).toNat ∧ map.stackLimit ≤ t.reg .sp ∧
      (t.reg .sp).toNat + need ≤ map.stackTop.toNat ∧ Only [.sp, .k0] s.reg t.reg)

theorem reserves {map : MemoryMap} {need : Nat} {m : Linked} {k : Nat} {s : State} (hm : m.Has k (reservation map need))
    (hk : At m.image k s) (top : s.reg .sp ≤ map.stackTop) :
    Reserves map need m.image k (k + codeSize (reservation map need)) s := by
  obtain ⟨stops, goes_on⟩ := (stackGuard map).comes hk hm
  have moved := Word.toNat_add_ofInt (s.reg .sp) (-(need : Int))
  have below : (stackGuard map).crossed (s.reg .sp + Word.ofInt (-(need : Int))) ↔
      ((s.reg .sp).toNat - need : Int) % 2 ^ 32 < map.stackLimit.toNat := by
    show decide (_ < _) = true ↔ _
    rw [decide_eq_true_iff, UInt32.lt_iff_toNat_lt, ← Int.ofNat_lt, moved, Int.sub_eq_add_neg]
  have stops_iff := stops.trans below
  have go : ¬ Stops k (k + codeSize (reservation map need)) s (Word.ofImm Signal.stackLimit) →
      ∃ n t, Quiet k (k + codeSize (reservation map need)) n s t ∧ At m.image (k + codeSize (reservation map need)) t ∧
        ((t.reg .sp).toNat : Int) = ((s.reg .sp).toNat - need : Int) % 2 ^ 32 ∧ Only [.sp, .k0] s.reg t.reg := by
    intro free
    obtain ⟨t, quiet, arrived, place, only⟩ := goes_on free
    refine ⟨_, t, quiet, arrived, ?_, only⟩
    rw [show t.reg .sp = _ from place, stackGuard_pointer, moved, Int.sub_eq_add_neg]
  refine ⟨stops_iff, go, fun enough => ?_⟩
  have same : ((s.reg .sp).toNat - need : Int) % 2 ^ 32 = (s.reg .sp).toNat - need :=
    Int.emod_eq_of_lt (by omega) (by have bound := (s.reg .sp).toNat_lt; omega)
  rw [same] at stops_iff go
  refine ⟨stops_iff, fun free => ?_⟩
  obtain ⟨n, t, quiet, arrived, place, only⟩ := go free
  have limit := mt stops_iff.2 free
  have within := UInt32.le_iff_toNat_le.1 top
  exact ⟨n, t, quiet, arrived, by omega, UInt32.le_iff_toNat_le.2 (by omega), by omega, only⟩

/-! ## Calls and first functions -/

/-- Wherever the code of a call lies, the frame of the function and the link area are reserved so once the arguments have been
    computed, and before the first of them is stored.  Wherever the code of a first function with a frame lies, the frame is reserved
    so, and nothing else is done before the first statement. -/
theorem stack_reserved (site : Site) (p : RegPool) (r : Emitted Unit) :
    (∀ c target, callCode site c target p = .ok r → ∃ callee d a after, site.scope.function c.name = .ok callee ∧
      destinationCode site callee target p = .ok d ∧ argsCode site c.args callee.params d.pool = .ok a ∧
      r.code = d.code ++ (a.code ++ (reservation site.scope.map (callee.frame.size + Site.linkArea) ++
        .instr (.sw d.value .sp 0) :: after)) ∧
      ∀ (m : Linked) (k : Nat) s, m.Has k r.code → At m.image (k + codeSize d.code + codeSize a.code) s →
        s.reg .sp ≤ site.scope.map.stackTop →
        Reserves site.scope.map (callee.frame.size + Site.linkArea) m.image (k + codeSize d.code + codeSize a.code)
          (k + codeSize d.code + codeSize a.code + codeSize (reservation site.scope.map (callee.frame.size + Site.linkArea))) s) ∧
    (site.self.isEntry → 0 < site.self.frame.size → prologueCode site p = .ok r →
      r.code = reservation site.scope.map site.self.frame.size ∧
      ∀ (m : Linked) (k : Nat) s, m.Has k r.code → At m.image k s → s.reg .sp ≤ site.scope.map.stackTop →
        Reserves site.scope.map site.self.frame.size m.image k (k + codeSize r.code) s) := by
  constructor
  · intro c target h
    obtain ⟨callee, d, a, after, known, hd, ha, code⟩ := callCode_eq_ok h
    refine ⟨callee, d, a, after, known, hd, ha, code, fun m k s hm hk top => ?_⟩
    rw [code] at hm
    exact reserves hm.append.2.append.2.append.1 hk top
  · intro entry some_frame h
    obtain rfl := Except.ok.inj ((prologueCode_entry entry some_frame).symm.trans h)
    exact ⟨rfl, fun m k s hm hk top => reserves hm hk top⟩

/-- A program with one function `f` of 100 bytes, and a first function of 20000000 bytes. -/
def wideSite : Site where
  scope := { functions := [⟨"f", none, { size := 100 }, 0⟩] }
  self := ⟨entryName, none, { size := 20000000 }, 0⟩

/-- With 100 bytes left on the stack, a call that needs 108 is stopped.  A first function that needs more than there are below the
    stack pointer is not. -/
theorem stack_reserved_wide :
    (∃ (m : Linked) (l : Nat) (s : State), At m.image 0 s ∧ m.Has 0 (reservation {} 108) ∧ s.reg .sp = 0xC00064 ∧
      Stops 0 l s (Word.ofImm Signal.stackLimit)) ∧
    ∃ (m : Linked) (l n : Nat) (s t : State), At m.image 0 s ∧ m.Has 0 (reservation {} 20000000) ∧ s.reg .sp = 0x1000000 ∧
      Quiet 0 l n s t ∧ At m.image l t ∧ (t.reg .sp).toNat = 4291744512 := by
  let linked (code : List Line) : Linked := ⟨instrsOf (fun _ => 0) code, fun _ => 0⟩
  have whole (code : List Line) : (linked code).Has 0 code := Lies.self _
  constructor
  · let code := reservation {} 108 ++ [.instr (.sw .zero .sp 0), .jump "jal" "f"]
    have called : callCode wideSite ⟨"f", []⟩ none {} = .ok ⟨(), code, {}⟩ := rfl
    obtain ⟨callee, d, a, after, known, hd, ha, -, reserves⟩ := (stack_reserved wideSite {} _).1 _ _ called
    obtain rfl := Except.ok.inj known
    obtain rfl := Except.ok.inj hd
    obtain rfl := Except.ok.inj ha
    obtain ⟨s, hs, contents, -⟩ := exists_at (linked code).image (by decide) 0 (fun q => if q = .sp then 0xC00064 else 0) rfl
      (Nat.le_refl _) (by decide)
    have sp : s.reg .sp = 0xC00064 := by rw [contents]; rfl
    have here := reserves _ 0 s (whole code) hs (by rw [sp]; decide)
    refine ⟨linked code, _, s, hs, (whole code).append.1, sp, here.stops_iff.2 ?_⟩
    rw [sp]
    decide
  · let code := reservation {} 20000000
    have entered : prologueCode wideSite {} = .ok ⟨(), code, {}⟩ := prologueCode_entry rfl (by decide)
    obtain ⟨-, reserves⟩ := (stack_reserved wideSite {} _).2 rfl (by decide) entered
    obtain ⟨s, hs, contents, -⟩ := exists_at (linked code).image (by decide) 0 (fun q => if q = .sp then 0x1000000 else 0) rfl
      (Nat.le_refl _) (by decide)
    have sp : s.reg .sp = 0x1000000 := by rw [contents]; rfl
    have here := reserves _ 0 s (whole code) hs (by rw [sp]; decide)
    obtain ⟨n, t, quiet, arrived, place, -⟩ := here.goes_on (mt here.stops_iff.1 (by rw [sp]; decide))
    refine ⟨linked code, _, n, s, t, hs, whole code, sp, quiet, arrived, ?_⟩
    rw [sp] at place
    exact Int.ofNat_inj.1 place

end M32.Lang
