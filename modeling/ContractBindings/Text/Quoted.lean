import ContractBindings.Text.Hex
import ContractBindings.Text.Unprintable

/-!
# Quoted texts

A text between double quotes.  The quote, the backslash and four control characters have short
escapes; any other unprintable character is written by its code point.
-/

namespace ContractBindings.Text.Quoted

/-- How one character is written between the quotes. -/
def escape (c : Char) : List Char :=
  if c = '\x00' then ['\\', '0']
  else if c = '\t' then ['\\', 't']
  else if c = '\r' then ['\\', 'r']
  else if c = '\n' then ['\\', 'n']
  else if c = '"' then ['\\', '"']
  else if c = '\\' then ['\\', '\\']
  else if isPrintable c then [c]
  else ['\\', 'u', '\x7b'] ++ Hex.ofNat c.toNat ++ ['\x7d']

/-- The characters of a quoted text. -/
def chars (s : List Char) : List Char := '"' :: s.flatMap escape ++ ['"']

end Quoted

def quoted (s : String) : String := String.ofList (Quoted.chars s.toList)

end ContractBindings.Text
