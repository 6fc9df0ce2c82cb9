/-
  Painted text: the escape sequences that colour a terminal.

  A `Paint` is what one span of text looks like; `paint` opens it before the span and takes it back after it.
  The colour goes back to the default with 39, bold and dim with 22 and underline with 24.
-/
namespace M32.Text

/-- Colours of the six that a terminal names, as many as are used. -/
inductive Colour where
  | red | green | yellow | blue | cyan
  deriving DecidableEq, Repr

/-- The parameter that selects a colour. -/
def Colour.code : Colour → String
  | .red => "31"
  | .green => "32"
  | .yellow => "33"
  | .blue => "34"
  | .cyan => "36"

/-- An escape sequence with one parameter. -/
def escape (code : String) : String := "\x1b[" ++ code ++ "m"

/-- The sequence that selects a colour. -/
def Colour.start (c : Colour) : String := escape c.code

/-- The sequence that goes back to the default colour. -/
def colourOff : String := escape "39"

/-- Text in a colour. -/
def coloured (c : Colour) (s : String) : String := c.start ++ s ++ colourOff

/-- Text in bold and a colour. -/
def strong (c : Colour) (s : String) : String := c.start ++ escape "1" ++ s ++ colourOff ++ escape "22"

/-- Text in a faint shade. -/
def faint (s : String) : String := escape "2" ++ s ++ escape "22"

/-- Text with a line under it. -/
def underlined (s : String) : String := escape "4" ++ s ++ escape "24"

end M32.Text
