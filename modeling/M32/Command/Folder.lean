/-
  A console over files in memory.

  1. A name is a path: steps between slashes, from the folder or from the root of the system.  `Folder.find?` follows
     it.  Every step but the first is taken from a folder, so a slash at the end asks for one.
  2. `Folder` holds files by place, the latest of a place first, and what was printed.  There are folders above every
     file, around the folder itself, and at the root of the system.
-/
import M32.Command.Console
import M32.Text.Cut

namespace M32.Command

/-! ## Places -/

/-- Where a file or a folder lies: steps from the folder, or from the root of the system.  Steps up come first. -/
structure Place where
  fromRoot : Bool := false
  steps : List String := []
  deriving DecidableEq, Repr

namespace Place

/-- The step up. -/
def up : String := ".."

/-- One step up.  Above the root is the root. -/
def parent (p : Place) : Place :=
  if p.steps.all (· = up) then (if p.fromRoot then p else { p with steps := p.steps ++ [up] })
  else { p with steps := p.steps.dropLast }

/-- One step of a path. -/
def step (p : Place) (s : String) : Place :=
  if s = "" || s = "." then p else if s = up then p.parent else { p with steps := p.steps ++ [s] }

/-- Whether a place lies below another one. -/
def isBelow (p top : Place) : Bool :=
  p.fromRoot = top.fromRoot && top.steps.length < p.steps.length && top.steps.isPrefixOf p.steps

/-- Whether a place lies above the folder, or is the folder. -/
def isAround (p : Place) : Bool := !p.fromRoot && p.steps.all (· = up)

/-- The folders that every system has. -/
def common : List Place := [[], ["bin"], ["dev"], ["etc"], ["home"], ["tmp"], ["usr"], ["var"]].map fun steps => ⟨true, steps⟩

/-- The file that is always empty. -/
def null : Place := ⟨true, ["dev", "null"]⟩

end Place

/-! ## Folders -/

/-- Files by place, and what was printed. -/
structure Folder where
  files : List (Place × ByteArray) := []
  printed : String := ""

namespace Folder

/-- The longest name of a file, in bytes. -/
def longestName : Nat := 255

/-- Whether there is a folder at a place. -/
def isFolder (f : Folder) (p : Place) : Bool :=
  p.isAround || Place.common.contains p || f.files.any fun (q, _) => q.isBelow p

/-- The place of a name, as far as folders lead there. -/
def find? (f : Folder) (name : String) : Option Place :=
  let follow (start : Place) (steps : List (List Char)) : Option Place :=
    steps.foldlM (fun p s => if f.isFolder p then some (p.step (String.ofList s)) else none) start
  match name.toList with
  | [] => none
  | '/' :: cs => follow { fromRoot := true } (Text.fieldsAt '/' cs)
  | cs => follow {} (Text.fieldsAt '/' cs)

/-- The folder of some files, by names of steps down. -/
def ofFiles (files : List (String × ByteArray)) : Folder :=
  { files := files.map fun (name, bytes) =>
      ((Text.fieldsAt '/' name.toList).foldl (fun p s => p.step (String.ofList s)) {}, bytes) }

/-- The file at a place. -/
def fileAt? (f : Folder) (p : Place) : Option ByteArray := if p = .null then some .empty else f.files.lookup p

/-- The file of a name. -/
def file? (f : Folder) (name : String) : Option ByteArray := (f.find? name).bind f.fileAt?

/-- What reading a file gives. -/
def read (f : Folder) (name : String) : Except ReadFault ByteArray :=
  match f.find? name with
  | none => .error .missing
  | some p => match f.fileAt? p with
    | some bytes => .ok bytes
    | none => .error (if f.isFolder p then .unreadable else .missing)

/-- Whether a file can be written at a place. -/
def isWritable (f : Folder) (p : Place) : Bool :=
  !f.isFolder p && p.steps.getLast?.all (·.utf8ByteSize ≤ longestName)

/-- Writes a file, if it can be written. -/
def write (f : Folder) (name : String) (bytes : ByteArray) : Bool × Folder :=
  match f.find? name with
  | none => (false, f)
  | some p =>
    if p = .null then (true, f)
    else if f.isWritable p then (true, { f with files := (p, bytes) :: f.files })
    else (false, f)

/-- A console over the files of a folder. -/
def console : Console (StateM Folder) where
  read name := return (← get).read name
  write name bytes := modifyGet (·.write name bytes)
  print text := modify fun f => { f with printed := f.printed ++ text }

example : let f := ofFiles [("a.s", ⟨#[1]⟩), ("d/b.s", ⟨#[2]⟩)]
    (f.file? ".//a.s").isSome ∧ (f.file? "d/../a.s").isSome ∧ f.find? "a.s/" = none ∧ f.isFolder ⟨false, ["d"]⟩ := by
  decide +kernel

end Folder

end M32.Command
