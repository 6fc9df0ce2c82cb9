/-
  Paged memory as a flat map of words, over any row of accesses.

  1. An `Access` reads or writes one word.  `Memory.run` makes accesses one after another and keeps what the reads give.  `latest` is
     the word that was written last at an address, and the only thing that a flat map would know of it.
  2. `Reflects` ties a memory to the accesses that were made: it reads as the flat map, and it has the pages that were written to.
     One access keeps this (`Reflects.access`), and so does a row of them (`Reflects.run`).
  3. `paged_is_flat` puts these together, with the bounds of every access.
-/
import M32.Proofs.Machine.Memory
import Mathlib.Data.Finset.Card
import Mathlib.Data.Finset.Dedup

namespace M32.Machine

/-! ## Accesses -/

/-- An access to a word of memory. -/
inductive Access where
  | read (address : Word)
  | write (address value : Word)
  deriving DecidableEq, Repr

namespace Access

/-- The address of an access. -/
def address : Access → Word
  | read a => a
  | write a _ => a

/-- Whether an access is to an address that is a multiple of four. -/
def IsAligned (c : Access) : Prop := c.address.toNat % 4 = 0

instance : DecidablePred IsAligned := fun c => inferInstanceAs (Decidable (c.address.toNat % 4 = 0))

/-- What an access writes at an address. -/
def written? (a : Word) : Access → Option Word
  | read _ => none
  | write b w => if b = a then some w else none

/-- The page that an access writes to. -/
def page? : Access → Option Nat
  | read _ => none
  | write a _ => some (Memory.pageOf a)

end Access

/-- The word that some accesses wrote last at an address, zero if none did. -/
def latest (a : Word) (cs : List Access) : Word := (cs.reverse.findSome? (Access.written? a)).getD 0

/-- What an access gives after some others. -/
def Access.answer (past : List Access) : Access → Option Word
  | read a => some (latest a past)
  | write _ _ => none

theorem latest_concat (a : Word) (cs : List Access) (c : Access) : latest a (cs ++ [c]) = (c.written? a).getD (latest a cs) := by
  rw [latest, List.reverse_concat, List.findSome?_cons]
  cases c.written? a with
  | none => rfl
  | some w => rfl

namespace Memory

/-- Makes an access. -/
def access (m : Memory) : Access → Option Word × Memory
  | .read a => (some (m.read a), m)
  | .write a w => (none, m.write a w)

/-- Makes accesses one after another. -/
def run (m : Memory) : List Access → List (Option Word) × Memory
  | [] => ([], m)
  | c :: cs => ((m.access c).1 :: ((m.access c).2.run cs).1, ((m.access c).2.run cs).2)

theorem run_concat (m : Memory) (cs : List Access) (c : Access) :
    m.run (cs ++ [c]) = ((m.run cs).1 ++ [((m.run cs).2.access c).1], ((m.run cs).2.access c).2) := by
  induction cs generalizing m with
  | nil => rfl
  | cons d cs ih => rw [List.cons_append, run, ih]; rfl

/-! ## Pages -/

theorem offset_lt {a : Word} (h : a.toNat % 4 = 0) {k : Nat} (hk : k < 4) :
    offsetOf a + k < pageSize ∧ (a.toNat + k) / pageSize = pageOf a := by
  simp only [offsetOf, pageOf, pageSize]; omega

/-- A write makes its page, if it is not there. -/
theorem mem_pages_write (m : Memory) (a w : Word) (p : Nat) : p ∈ (m.write a w).pages ↔ pageOf a = p ∨ p ∈ m.pages := by
  have made : (storeIn (offsetOf a) w m.pages[pageOf a]?).isSome = true := by
    cases m.pages[pageOf a]? <;> rfl
  rw [write, Std.TreeMap.mem_alter, made]
  simp only [Nat.compare_eq_eq]
  by_cases here : pageOf a = p
  · rw [if_pos here]
    exact iff_of_true trivial (.inl here)
  · rw [if_neg here, or_iff_right here]

theorem pageCount_eq {m : Memory} {ps : List Nat} (h : ∀ p, p ∈ m.pages ↔ p ∈ ps) : m.pageCount = ps.toFinset.card := by
  have same : m.pages.keys.toFinset = ps.toFinset := by
    ext p
    rw [List.mem_toFinset, List.mem_toFinset, Std.TreeMap.mem_keys, h]
  rw [← same, List.toFinset_card_of_nodup Std.TreeMap.nodup_keys, Std.TreeMap.length_keys, pageCount]

end Memory

/-! ## What a memory holds after some accesses -/

/-- A memory reads as what was written last, and has the pages that were written to. -/
structure Reflects (m : Memory) (past : List Access) : Prop where
  reads : ∀ a : Word, a.toNat % 4 = 0 → m.read a = latest a past
  pages : ∀ p, p ∈ m.pages ↔ p ∈ past.filterMap Access.page?

namespace Reflects

variable {m : Memory} {past : List Access}

theorem empty (size : Nat) : Reflects { size } [] where
  reads a _ := Memory.read_empty size a
  pages p := by simp

theorem write (h : Reflects m past) {a : Word} (aligned : a.toNat % 4 = 0) (w : Word) :
    Reflects (m.write a w) (past ++ [.write a w]) where
  reads b hb := by
    rw [Memory.read_write m aligned hb, latest_concat, Access.written?, h.reads b hb]
    by_cases here : a = b
    · simp only [if_pos here, Option.getD_some]
    · simp only [if_neg here, Option.getD_none]
  pages p := by
    rw [Memory.mem_pages_write, h.pages, List.filterMap_append, List.mem_append, or_comm, @eq_comm _ _ p]
    exact or_congr_right List.mem_singleton.symm

/-- A read changes nothing. -/
theorem read (h : Reflects m past) (a : Word) : Reflects m (past ++ [.read a]) where
  reads b hb := by
    rw [h.reads b hb, latest_concat]
    rfl
  pages p := by
    rw [h.pages, List.filterMap_append]
    exact iff_of_eq (congrArg (p ∈ ·) (List.append_nil _).symm)

theorem access (h : Reflects m past) {c : Access} (aligned : c.IsAligned) :
    (m.access c).1 = c.answer past ∧ Reflects (m.access c).2 (past ++ [c]) := by
  cases c with
  | read a => exact ⟨congrArg some (h.reads a aligned), h.read a⟩
  | write a w => exact ⟨rfl, h.write aligned w⟩

/-- Every access of a row gives what those before it say, and the memory reflects all of them in the end. -/
theorem run (h : Reflects m past) {cs : List Access} (aligned : ∀ c ∈ cs, c.IsAligned) :
    (∀ i : Nat, (m.run cs).1[i]? = cs[i]?.map fun c : Access => c.answer (past ++ cs.take i)) ∧ Reflects (m.run cs).2 (past ++ cs) := by
  -- `Reflects` ties the memory to the accesses so far, so it is what an access hands on to those after it
  induction cs generalizing m past with
  | nil => exact ⟨fun i => rfl, by rwa [List.append_nil]⟩
  | cons c cs ih =>
    obtain ⟨first, after⟩ := h.access (aligned c List.mem_cons_self)
    obtain ⟨others, last⟩ := ih after fun d hd => aligned d (List.mem_cons_of_mem _ hd)
    rw [List.append_assoc, List.singleton_append] at last
    refine ⟨?_, last⟩
    rintro (_ | i)
    · rw [List.take_zero, List.append_nil, Memory.run, first]
      rfl
    · rw [List.take_succ_cons, List.append_cons]
      exact others i

end Reflects

/-! ## All rows of accesses -/

/-- Paged memory is a flat map of words.  Whatever aligned accesses are made to new memory of some size:
    1. A read gives the word that was written last at its address, zero if none was.
    2. So it does for all aligned addresses in the end, and one more write changes the word at its own address alone.
    3. The four bytes of every access lie in the page of its address.
    4. There are as many pages as different pages were written to, and a read leaves memory as it was. -/
theorem paged_is_flat (size : Nat) (cs : List Access) (aligned : ∀ c ∈ cs, c.IsAligned) :
    (∀ i : Nat, (Memory.run { size } cs).1[i]? = cs[i]?.map fun c : Access => c.answer (cs.take i)) ∧
    (∀ a : Word, a.toNat % 4 = 0 → (Memory.run { size } cs).2.read a = latest a cs) ∧
    (∀ a b w : Word, a.toNat % 4 = 0 → b.toNat % 4 = 0 →
      ((Memory.run { size } cs).2.write a w).read b = if a = b then w else (Memory.run { size } cs).2.read b) ∧
    (∀ c ∈ cs, ∀ k < 4, Memory.offsetOf c.address + k < pageSize ∧ (c.address.toNat + k) / pageSize = Memory.pageOf c.address) ∧
    (Memory.run { size } cs).2.pageCount = (cs.filterMap Access.page?).toFinset.card ∧
    ∀ (i : Nat) (a : Word), cs[i]? = some (.read a) →
      (Memory.run { size } (cs.take (i + 1))).2 = (Memory.run { size } (cs.take i)).2 := by
  obtain ⟨answers, last⟩ := (Reflects.empty size).run aligned
  refine ⟨answers, last.reads, ?_, ?_, Memory.pageCount_eq last.pages, ?_⟩
  · intro a b w ha hb
    exact Memory.read_write _ ha hb w
  · intro c hc k hk
    exact Memory.offset_lt (aligned c hc) hk
  · intro i a hi
    rw [List.take_add_one, hi, Option.toList_some, Memory.run_concat]
    rfl

/-- Writes at both ends of the address space, at the end of a page and at the start of the next, with reads between them. -/
theorem paged_is_flat_edges :
    let cs : List Access := [.read 0xFFFFFFFC, .write 0xFFFFFFFC 0xDEADBEEF, .write 0xFFC 1, .write 0x1000 2, .read 0xFFC, .write 0xFFC 3,
      .read 0xFFFFFFFC]
    (∀ c ∈ cs, c.IsAligned) ∧ (Memory.run { size := 0x2000 } cs).1[0]? = some (some 0) ∧
      (Memory.run { size := 0x2000 } cs).1[4]? = some (some 1) ∧ (Memory.run { size := 0x2000 } cs).1[6]? = some (some 0xDEADBEEF) ∧
      (Memory.run { size := 0x2000 } cs).2.read 0xFFC = 3 ∧ (Memory.run { size := 0x2000 } cs).2.read 0xFF8 = 0 ∧
      (Memory.run { size := 0x2000 } cs).2.pageCount = 3 ∧
      (Memory.run { size := 0x2000 } (cs.take 5)).2 = (Memory.run { size := 0x2000 } (cs.take 4)).2 := by
  intro cs
  have aligned : ∀ c ∈ cs, c.IsAligned := by decide
  obtain ⟨answers, reads, -, -, pages, unchanged⟩ := paged_is_flat 0x2000 cs aligned
  exact ⟨aligned, (answers 0).trans rfl, (answers 4).trans rfl, (answers 6).trans rfl, (reads 0xFFC rfl).trans rfl,
    (reads 0xFF8 rfl).trans rfl, pages.trans rfl, unchanged 4 0xFFC rfl⟩

end M32.Machine
