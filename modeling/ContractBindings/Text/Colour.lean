/-!
# Terminal colours

A message is painted by writing the sequence that selects a colour before it and the sequence that
clears all attributes after it.
-/

namespace ContractBindings.Text

/-- The colours of messages. -/
inductive Colour where
  | grey
  | mint
  | red
  | yellow
  deriving DecidableEq, Repr

namespace Colour

/-- The sequence that selects the colour.  Grey is the terminal's own colour. -/
def sequence : Colour → String
  | grey => "\x1b[0;0m"
  | mint => "\x1b[38;5;48;1m"
  | red => "\x1b[31;1m"
  | yellow => "\x1b[33;1m"

/-- The sequence that clears all attributes. -/
def clear : String := "\x1b[0;0m"

/-- Paints a text with any selecting sequence. -/
def wrap (sequence text : String) : String := sequence ++ text ++ clear

def paint (c : Colour) (text : String) : String := wrap c.sequence text

end Colour

end ContractBindings.Text
