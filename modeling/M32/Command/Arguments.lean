/-
  Arguments of commands.

  1. An option has a long name after two hyphens and may have a short one after a hyphen.  Some options take a value.
  2. The value of a long option stands after `=` or is the next argument; that of a short option may also follow
     right after it, with `=` or without.  Short options without values may share a hyphen.
  3. A value that is an argument of its own does not look like an option.  After `--` all arguments are inputs.
  4. No option is given twice.
-/
import M32.Text.Cut

namespace M32.Command

/-! ## Options -/

/-- An option of a command. -/
structure OptionSpec where
  long : String
  short? : Option Char := none
  takesValue : Bool := false
  deriving DecidableEq, Repr

/-- The arguments of a command: inputs in order, and options by their long names. -/
structure Arguments where
  inputs : List String := []
  switches : List String := []
  values : List (String × String) := []
  deriving DecidableEq, Repr

namespace Arguments

/-- Whether an option without a value is given. -/
def has (a : Arguments) (name : String) : Bool := a.switches.contains name

/-- The value of an option. -/
def value? (a : Arguments) (name : String) : Option String := a.values.lookup name

/-- Adds an input. -/
def addInput (a : Arguments) (text : List Char) : Arguments := { a with inputs := a.inputs ++ [String.ofList text] }

/-- Adds an option without a value. -/
def addSwitch (a : Arguments) (name : String) : Option Arguments :=
  if a.has name then none else some { a with switches := a.switches ++ [name] }

/-- Adds an option with its value. -/
def addValue (a : Arguments) (name : String) (value : List Char) : Option Arguments :=
  if (a.value? name).isSome then none else some { a with values := a.values ++ [(name, String.ofList value)] }

end Arguments

/-! ## Reading -/

/-- What is known after some arguments. -/
structure Reading where
  args : Arguments := {}
  /-- The option whose value is the next argument. -/
  pending : Option String := none
  /-- Whether all arguments from here on are inputs. -/
  inputsOnly : Bool := false
  deriving DecidableEq, Repr

namespace Reading

/-- Adds an option without a value. -/
def addSwitch (r : Reading) (name : String) : Option Reading := (r.args.addSwitch name).map fun args => { r with args }

/-- Adds an option with its value. -/
def addValue (r : Reading) (name : String) (value : List Char) : Option Reading :=
  (r.args.addValue name value).map fun args => { r with args, pending := none }

/-- Reads a long option without its hyphens. -/
def long (specs : List OptionSpec) (r : Reading) (text : List Char) : Option Reading :=
  let (name, value?) := match Text.cutFirst? '=' text with
    | some (name, value) => (name, some value)
    | none => (text, none)
  match specs.find? (·.long.toList = name), value? with
  | some spec, some value => if spec.takesValue then r.addValue spec.long value else none
  | some spec, none => if spec.takesValue then some { r with pending := some spec.long } else r.addSwitch spec.long
  | none, _ => none

/-- Reads short options without their hyphen. -/
def short (specs : List OptionSpec) (r : Reading) : List Char → Option Reading
  | [] => some r
  | c :: cs => match specs.find? (·.short? = some c) with
    | none => none
    | some spec =>
      if spec.takesValue then
        match cs with
        | [] => some { r with pending := some spec.long }
        | '=' :: value => r.addValue spec.long value
        | value => r.addValue spec.long value
      else (r.addSwitch spec.long).bind fun r => short specs r cs

/-- Reads an argument that is no option: a value or an input. -/
def plain (r : Reading) (text : List Char) : Option Reading :=
  match r.pending with
  | some name => r.addValue name text
  | none => some { r with args := r.args.addInput text }

/-- Reads an argument. -/
def next (specs : List OptionSpec) (r : Reading) (arg : String) : Option Reading :=
  if r.inputsOnly then r.plain arg.toList
  else
    match arg.toList with
    | ['-', '-'] => if r.pending.isSome then none else some { r with inputsOnly := true }
    | '-' :: '-' :: text => if r.pending.isSome then none else r.long specs text
    | ['-'] => r.plain ['-']
    | '-' :: text => if r.pending.isSome then none else r.short specs text
    | text => r.plain text

end Reading

/-- Reads the arguments of a command that takes at most `maxInputs` inputs. -/
def Arguments.read (specs : List OptionSpec) (maxInputs : Option Nat) (args : List String) : Option Arguments := do
  let r ← args.foldlM (Reading.next specs) {}
  if r.pending.isSome || maxInputs.any (· < r.args.inputs.length) then none else some r.args

example : Arguments.read [⟨"out", some 'o', true⟩, ⟨"dump", some 'd', false⟩] none ["a", "-do=b", "--", "-c"]
    = some ⟨["a", "-c"], ["dump"], [("out", "b")]⟩ := by decide +kernel

end M32.Command
