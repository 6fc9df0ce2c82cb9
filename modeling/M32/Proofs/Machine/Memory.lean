/-
  Memory as a map from aligned addresses to words.

  1. `Page.load_store`: words of a page at different offsets do not overlap.
  2. `read_write`: a write changes the word at its own address only, as long as addresses are multiples of four.
-/
import M32.Machine.Memory

namespace M32.Machine

/-! ## Pages -/

theorem Page.getD_setIfInBounds (p : Page) (i j : Nat) (b : UInt8) (h : i < 4096) :
    (p.setIfInBounds i b).getD j 0 = if i = j then b else p.getD j 0 := by
  simp only [Vector.getD]
  by_cases hij : i = j
  · subst hij
    simp [h]
  · simp [hij]

/-- A word stored at one offset is loaded from there, and from no other. -/
theorem Page.load_store (p : Page) {i j : Nat} (hi : i % 4 = 0) (hj : j % 4 = 0) (h : i + 4 ≤ 4096) (w : Word) :
    (p.store i w).load j = if i = j then w else p.load j := by
  have byte (k : Nat) : (p.store i w).getD k 0 = if i + 3 = k then w.byteAt 0 else if i + 2 = k then w.byteAt 8
      else if i + 1 = k then w.byteAt 16 else if i = k then w.byteAt 24 else p.getD k 0 := by
    rw [store, getD_setIfInBounds _ _ _ _ (by omega), getD_setIfInBounds _ _ _ _ (by omega),
      getD_setIfInBounds _ _ _ _ (by omega), getD_setIfInBounds _ _ _ _ (by omega)]
  rw [load, byte, byte, byte, byte]
  by_cases hij : i = j
  · subst hij
    simp only [if_true, Nat.add_right_cancel_iff, Nat.add_left_cancel_iff]
    rw [if_neg (by omega), if_neg (by omega), if_neg (by omega)]
    simp [Word.ofBytes_bytes]
  · rw [if_neg hij, load]
    simp only [show i + 3 ≠ j by omega, show i + 2 ≠ j by omega, show i + 1 ≠ j by omega, show i ≠ j by omega,
      show i + 3 ≠ j + 1 by omega, show i + 2 ≠ j + 1 by omega, show i + 1 ≠ j + 1 by omega, show i ≠ j + 1 by omega,
      show i + 3 ≠ j + 2 by omega, show i + 2 ≠ j + 2 by omega, show i + 1 ≠ j + 2 by omega, show i ≠ j + 2 by omega,
      show i + 3 ≠ j + 3 by omega, show i + 2 ≠ j + 3 by omega, show i + 1 ≠ j + 3 by omega, show i ≠ j + 3 by omega,
      if_false]

theorem Page.load_blank (offset : Nat) : Page.blank.load offset = 0 := by
  have byte (k : Nat) : Page.blank.getD k 0 = 0 := by
    rw [Vector.getD, Array.getD_eq_getD_getElem?, blank, Vector.toArray_replicate, Array.getElem?_replicate]
    split <;> rfl
  rw [load, byte, byte, byte, byte]; rfl

/-! ## Memory -/

namespace Memory

@[simp] theorem size_write (m : Memory) (a w : Word) : (m.write a w).size = m.size := rfl

theorem read_empty (size : Nat) (a : Word) : ({ size } : Memory).read a = 0 := by
  rw [read, Std.TreeMap.getElem?_emptyc]

/-- The word at an address is loaded from its page, blank if it is not there. -/
theorem read_eq (m : Memory) (a : Word) : m.read a = ((m.pages[pageOf a]?).getD Page.blank).load (offsetOf a) := by
  rw [read]
  cases m.pages[pageOf a]? with
  | none => exact (Page.load_blank _).symm
  | some page => rfl

theorem storeIn_getD (offset : Nat) (w : Word) (page? : Option Page) :
    (storeIn offset w page?).getD Page.blank = (page?.getD Page.blank).store offset w := by
  cases page? <;> rfl

/-- A write changes the word at its own address only. -/
theorem read_write (m : Memory) {a b : Word} (ha : a.toNat % 4 = 0) (hb : b.toNat % 4 = 0) (w : Word) :
    (m.write a w).read b = if a = b then w else m.read b := by
  have oa : offsetOf a % 4 = 0 ∧ offsetOf a + 4 ≤ 4096 := by
    simp only [offsetOf, pageSize]; omega
  have ob : offsetOf b % 4 = 0 := by
    simp only [offsetOf, pageSize]; omega
  have same : a = b ↔ pageOf a = pageOf b ∧ offsetOf a = offsetOf b := by
    rw [← UInt32.toNat_inj]
    simp only [pageOf, offsetOf, pageSize]; omega
  rw [read_eq, read_eq, write, Std.TreeMap.getElem?_alter]
  simp only [Nat.compare_eq_eq]
  by_cases page : pageOf a = pageOf b
  · rw [if_pos page, storeIn_getD, Page.load_store _ oa.1 ob oa.2, page]
    by_cases offset : offsetOf a = offsetOf b
    · rw [if_pos offset, if_pos (same.2 ⟨page, offset⟩)]
    · rw [if_neg offset, if_neg fun h => offset (same.1 h).2]
  · rw [if_neg page, if_neg fun h => page (same.1 h).1]

end Memory

end M32.Machine
