/-
  Listings and diagnostics: assembly text next to what it gave, or to what is wrong with it.

  1. `Listing.file` shows every line of a file.  A line that gave instructions has a row for each, with address,
     bytes, line number, text and the painted instruction; the text stands in the first of these rows only.
     Other lines have one row without an instruction, labels in green.
  2. `splitAt` gives each of several files, assembled as one program, the instructions below its end address.
  3. `Error.diagnostic` shows a fault with its file and line.
-/
import M32.Assembly.Assembler

namespace M32.Assembly

/-- A file of assembly text. -/
structure Source where
  name : String
  lines : List (List Char)
  deriving DecidableEq, Repr

/-- The file of a name and a text. -/
def Source.ofText (name : String) (text : List Char) : Source := ⟨name, Text.lines text⟩

/-! ## Listings -/

namespace Listing

/-- The rule above the rows of a file. -/
def header (name : String) : String :=
  Text.rule 19 '-' ++ "+------[" ++ name ++ "]" ++ Text.rule (45 - name.utf8ByteSize) '-'

/-- The rule below all rows. -/
def footer : String := Text.rule 22 '-' ++ "+" ++ Text.rule 53 '-'

/-- The bytes of a word in hexadecimal. -/
def byteText (w : Word) : String := Text.join " " (w.bytes.map fun b => Text.hex 2 b.toNat)

/-- The row of an instruction. -/
def wordRow (line : Nat) (text : String) (p : Placed) : String :=
  "[" ++ Text.coloured .cyan p.address.text ++ "] " ++ byteText p.word ++ " | " ++ Text.padLeft 4 (toString line) ++ ": "
    ++ Text.padRight 32 text ++ " " ++ p.instr.painted

/-- The row of a line without instructions. -/
def plainRow (line : Nat) (text : List Char) : String :=
  let shown := String.ofList text
  Text.rule 22 ' ' ++ "| " ++ Text.padLeft 4 (toString line) ++ ": "
    ++ if text.getLast? = some ':' then Text.coloured .green shown else shown

/-- The rows of a line with its instructions. -/
def lineRows (line : Nat) (text : List Char) : List Placed → List String
  | [] => [plainRow line text]
  | p :: ps => wordRow line (String.ofList text) p :: ps.map (wordRow line "")

/-- The rows of some lines, the first of which has the number `line`.  The instructions come in order; those at the
    front that name the line belong to it. -/
def rows (line : Nat) (placed : List Placed) : List (List Char) → List String
  | [] => []
  | raw :: rest =>
    let (mine, later) := placed.span (·.line = line)
    lineRows line (Text.trim raw) mine ++ rows (line + 1) later rest

/-- The rows of a file under its rule. -/
def file (s : Source) (placed : List Placed) : List String := header s.name :: rows 1 placed s.lines

/-- The listing of some files. -/
def render (files : List (Source × List Placed)) : String :=
  String.join ((files.flatMap (fun (s, placed) => file s placed) ++ [footer]).map (· ++ "\n"))

/-- Gives each file the instructions below its end address that no earlier file has. -/
def splitAt (placed : List Placed) : List (Source × Word) → List (Source × List Placed)
  | [] => []
  | (s, stop) :: rest =>
    let (mine, later) := placed.span (·.address < stop)
    (s, mine) :: splitAt later rest

end Listing

/-! ## Diagnostics -/

/-- What went wrong, and the file where it did. -/
def blame (message place : String) : String :=
  Text.strong .red "error" ++ ": " ++ message ++ "\n" ++ "     " ++ Text.coloured .blue "-->" ++ " "
    ++ Text.underlined place ++ "\n"

/-- A fault with the file and the line where it was found. -/
def Error.diagnostic (e : Error) (file : String) (lines : List (List Char)) : String :=
  match e.line with
  | none => blame e.fault.message file
  | some n =>
    let text := String.ofList ((lines[n - 1]?).getD [])
    let bar := "      " ++ Text.coloured .blue "|" ++ "\n"
    blame e.fault.message (file ++ ":" ++ toString n) ++ bar
      ++ " " ++ Text.coloured .blue (Text.padLeft 4 (toString n) ++ " |") ++ " " ++ text ++ "\n" ++ bar

end M32.Assembly
