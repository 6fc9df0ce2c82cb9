/-
  Byte-addressed memory in pages that come into being when they are first written.

  A page has 4096 bytes.  Words lie with their highest byte first; what was never written reads as zero.
  1. `read` and `write` are for addresses that the caller has found aligned and inside memory (`contains`).
  2. `pageCount` counts the pages that were written to.
-/
import M32.Word
import Std.Data.TreeMap

namespace M32.Machine

/-- The number of bytes in a page. -/
def pageSize : Nat := 4096

/-- The bytes of a page. -/
abbrev Page := Vector UInt8 4096

/-- A page of zeros. -/
def Page.blank : Page := Vector.replicate 4096 0

/-- The word whose first byte has an offset. -/
def Page.load (p : Page) (offset : Nat) : Word :=
  Word.ofBytes (p.getD offset 0) (p.getD (offset + 1) 0) (p.getD (offset + 2) 0) (p.getD (offset + 3) 0)

/-- The page with a word stored at an offset. -/
def Page.store (p : Page) (offset : Nat) (w : Word) : Page :=
  (((p.setIfInBounds offset (w.byteAt 24)).setIfInBounds (offset + 1) (w.byteAt 16)).setIfInBounds (offset + 2)
    (w.byteAt 8)).setIfInBounds (offset + 3) (w.byteAt 0)

/-- Memory of some size, with the pages that were written to. -/
structure Memory where
  /-- The number of bytes that can be addressed. -/
  size : Nat
  pages : Std.TreeMap Nat Page := ∅

namespace Memory

/-- Whether a word at an address lies inside memory. -/
def contains (m : Memory) (address : Word) : Bool := address.toNat + 4 ≤ m.size

/-- The number of the page of an address. -/
def pageOf (address : Word) : Nat := address.toNat / pageSize

/-- The offset of an address in its page. -/
def offsetOf (address : Word) : Nat := address.toNat % pageSize

/-- The word at an address. -/
def read (m : Memory) (address : Word) : Word :=
  match m.pages[pageOf address]? with
  | some page => page.load (offsetOf address)
  | none => 0

/-- A page, made if need be, with a word at an offset. -/
def storeIn (offset : Nat) (w : Word) (page? : Option Page) : Option Page :=
  match page? with
  | some page => some (page.store offset w)
  | none => some (Page.blank.store offset w)

/-- Memory with a word at an address. -/
def write (m : Memory) (address w : Word) : Memory :=
  { m with pages := m.pages.alter (pageOf address) (storeIn (offsetOf address) w) }

/-- The number of pages that were written to. -/
def pageCount (m : Memory) : Nat := m.pages.size

end Memory

end M32.Machine
