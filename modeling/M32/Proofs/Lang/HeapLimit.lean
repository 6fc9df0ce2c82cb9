/-
  Code that makes new objects, and the limit of the heap.

  1. `Allots` says what a machine does that comes to code that takes some bytes of the heap: the heap pointer moves modulo `2^32`,
     and what is compared with the limit is where it has moved.
  2. `new_allots`: so it is for every statement that makes a new object, with the heap pointer as it was before the statement.
-/
import M32.Proofs.Lang.Code.Delivered
import M32.Proofs.Lang.Code.Limits

namespace M32.Lang

open Machine

variable {site : Site} {p : RegPool} {r : Emitted Unit} {target : Place} {ty : Ty} {map : MemoryMap} {size k : Nat} {m : Linked}
  {s : State}

/-! ## What machines do there -/

/-- What happens when a machine comes to code that takes some bytes of the heap, from instruction `k` on and before `l`. -/
structure Allots (map : MemoryMap) (size : Nat) (image : List Instr) (k l : Nat) (s : State) : Prop where
  /-- The signal is raised if the heap pointer is above the limit when it has moved modulo `2^32`, and only then. -/
  stops_iff : Stops k l s (Word.ofImm Signal.heapLimit) ↔ map.heapLimit.toNat < ((s.reg .hp).toNat + size) % 2 ^ 32
  /-- Otherwise the next instruction follows, with nothing changed but the heap pointer and `k0`. -/
  goes_on : ¬ Stops k l s (Word.ofImm Signal.heapLimit) → ∃ t, Quiet k l (l - k - 2) s t ∧ At image l t ∧
    (t.reg .hp).toNat = ((s.reg .hp).toNat + size) % 2 ^ 32 ∧ Only [.hp, .k0] s.reg t.reg
  /-- If the address space does not end before the object, the signal is raised exactly if the object would cross the limit, and
      an object that is made otherwise lies in the heap. -/
  precise : (s.reg .hp).toNat + size < 2 ^ 32 →
    (Stops k l s (Word.ofImm Signal.heapLimit) ↔ map.heapLimit.toNat < (s.reg .hp).toNat + size) ∧
    (¬ Stops k l s (Word.ofImm Signal.heapLimit) → ∃ t, Quiet k l (l - k - 2) s t ∧ At image l t ∧
      (t.reg .hp).toNat = (s.reg .hp).toNat + size ∧ map.heapBase ≤ t.reg .hp ∧ t.reg .hp ≤ map.heapLimit ∧
      Only [.hp, .k0] s.reg t.reg)

theorem allots (hm : m.Has k (allotment map size)) (hk : At m.image k s) (base : map.heapBase ≤ s.reg .hp) :
    Allots map size m.image k (k + codeSize (allotment map size)) s := by
  obtain ⟨stops, goes_on⟩ := (heapGuard map).comes hk hm
  have steps : k + codeSize (allotment map size) - k - 2 = codeSize ((heapGuard map).lines size) - 2 := by
    rw [Nat.add_sub_cancel_left, allotment]
  have moved : (s.reg .hp + Word.ofInt size).toNat = ((s.reg .hp).toNat + size) % 2 ^ 32 := by
    have moved := Word.toNat_add_ofInt (s.reg .hp) size
    omega
  have above : (heapGuard map).crossed (s.reg .hp + Word.ofInt size) ↔
      map.heapLimit.toNat < ((s.reg .hp).toNat + size) % 2 ^ 32 := by
    show decide (_ < _) = true ↔ _
    rw [decide_eq_true_iff, UInt32.lt_iff_toNat_lt, moved]
  have stops_iff := stops.trans above
  have go : ¬ Stops k (k + codeSize (allotment map size)) s (Word.ofImm Signal.heapLimit) →
      ∃ t, Quiet k (k + codeSize (allotment map size)) (k + codeSize (allotment map size) - k - 2) s t ∧
        At m.image (k + codeSize (allotment map size)) t ∧
        (t.reg .hp).toNat = ((s.reg .hp).toNat + size) % 2 ^ 32 ∧ Only [.hp, .k0] s.reg t.reg := by
    intro free
    obtain ⟨t, quiet, arrived, place, only⟩ := goes_on free
    rw [steps]
    refine ⟨t, quiet, arrived, ?_, only⟩
    rw [show t.reg .hp = _ from place, heapGuard_pointer, moved]
  refine ⟨stops_iff, go, fun enough => ?_⟩
  rw [Nat.mod_eq_of_lt enough] at stops_iff go
  refine ⟨stops_iff, fun free => ?_⟩
  obtain ⟨t, quiet, arrived, place, only⟩ := go free
  have limit := mt stops_iff.2 free
  have within := UInt32.le_iff_toNat_le.1 base
  exact ⟨t, quiet, arrived, place, UInt32.le_iff_toNat_le.2 (by omega), UInt32.le_iff_toNat_le.2 (by omega), only⟩

/-- Wherever the code of a statement that makes a new object lies, a machine that can access what the place of the target needs, and
    can store there, comes to the lines that take the size of the object from the heap, with the heap pointer as it was, and stored
    at the target. -/
theorem new_allots (hb : site.scope.types.Bounded) (hp : p.Sound) (h : newCode site target ty p = .ok r) :
    ∃ size before, newSize site ty = .ok size ∧ r.code = before ++ allotment site.scope.map size ∧
      ∀ (m : Linked) (k : Nat) s, m.Has k r.code → At m.image k s → site.scope.map.heapBase ≤ s.reg .hp →
        ∃ f, target.found site (.of s) = some f ∧ ((∀ a ∈ f.loads, CanAccess s a) → CanStore s f.word →
          ∃ n u, Runs n s u ∧ At m.image (k + codeSize before) u ∧ u.reg .hp = s.reg .hp ∧
            u.memory = s.memory.write f.word (s.reg .hp) ∧
            Allots site.scope.map size m.image (k + codeSize before) (k + codeSize r.code) u) := by
  obtain ⟨size, d, known, hd, code⟩ := newCode_eq_ok h
  refine ⟨size, d.code ++ [.instr (.sw .hp d.value.reg 0)], known, by rw [code, List.append_assoc, List.singleton_append], ?_⟩
  intro m k s hm hk base
  obtain ⟨-, f, hf, -⟩ := ends_placeCode (s := s) target hp d hd
  refine ⟨f, hf, fun access room => ?_⟩
  rw [code] at hm ⊢
  obtain ⟨has_place, has_rest⟩ := hm.append
  obtain ⟨has_store, has_guard⟩ := has_rest.cons
  obtain ⟨t, works, given⟩ := arrives_placeCode hb target hp hf access (fun v q t g => g) d k hd hk.inside has_place
  have address : t.reg d.value.reg + Word.ofImm 0 = f.word := by
    rw [given.word]
    exact UInt32.add_zero _
  have same : SameImage s t := .of_memory works.imageEnd works.memory
  obtain ⟨u, goes, at_u, same', regs, -, memory⟩ := works.inside.step_store has_store.head (by
    rw [address]
    exact room.of_same same)
  have hp_t : t.reg .hp = s.reg .hp := given.keeps.regs .hp p.guards_hp
  have arrived : At m.image (k + codeSize d.code + 1) u := at_u.at_image hk ((same.trans same').imageEnd)
  have hp_u : u.reg .hp = s.reg .hp := by rw [regs, hp_t]
  obtain ⟨n, runs⟩ := works.runs
  have lies := allots has_guard arrived (by rw [hp_u]; exact base)
  have before : k + codeSize (d.code ++ [.instr (.sw .hp d.value.reg 0)]) = k + codeSize d.code + 1 := by
    rw [codeSize_append]; rfl
  have whole : k + codeSize (d.code ++ .instr (.sw .hp d.value.reg 0) :: allotment site.scope.map size) =
      k + codeSize d.code + 1 + codeSize (allotment site.scope.map size) := by
    rw [codeSize_append, codeSize_cons, Line.size, ← Nat.add_assoc, ← Nat.add_assoc]
  rw [before, whole]
  refine ⟨n + 1, u, runs.trans goes.runs, arrived, hp_u, ?_, lies⟩
  rw [memory, address, hp_t, works.memory]

end M32.Lang
