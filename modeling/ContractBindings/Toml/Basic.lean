import ContractBindings.Shape

/-!
# TOML values

The values of a TOML document.  Tables keep the order of their keys.  Of dates and times only their
presence is kept, and of a number with a point or an exponent its text.
-/

namespace ContractBindings

inductive Toml where
  | string (value : String)
  | integer (value : Int)
  | real (text : String)
  | boolean (value : Bool)
  | dateTime
  | array (elements : List Toml)
  | table (entries : List (String × Toml))
  deriving BEq, Repr, Inhabited

/-- The entries of a table, in order. -/
abbrev Toml.Entries := List (String × Toml)

def Toml.found : Toml → Found
  | string s => .string s
  | integer n => .integer n
  | real text => .real text
  | boolean b => .boolean b
  | dateTime => .map
  | array _ => .sequence
  | table _ => .map

end ContractBindings
