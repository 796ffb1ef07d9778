import ContractBindings.Text.Joined
import ContractBindings.Text.Quoted

/-!
# Shapes of data

A document is first read as plain data and then as a value of the domain.  `ShapeError` says why
data does not have the shape of such a value: what was found and what was expected.
-/

namespace ContractBindings

open Text

/-- What was found where something else was expected. -/
inductive Found where
  | null
  | boolean (value : Bool)
  | integer (value : Int)
  /-- A number with a point, as its text. -/
  | real (text : String)
  | string (value : String)
  | sequence
  | map
  deriving DecidableEq, Repr

namespace Found

def describe : Found → String
  | null => "null"
  | boolean true => "boolean `true`"
  | boolean false => "boolean `false`"
  | integer n => "integer `" ++ toString n ++ "`"
  | real text => "floating point `" ++ text ++ "`"
  | string s => "string " ++ quoted s
  | sequence => "sequence"
  | map => "map"

end Found

/-- Why data does not have the shape of a value. -/
inductive ShapeError where
  | invalidType (found : Found) (expected : String)
  | invalidValue (found : Found) (expected : String)
  | invalidLength (length : Nat) (expected : String)
  | missingField (name : String)
  | duplicateField (name : String)
  | unknownField (name : String) (known : List String)
  | unknownVariant (name : String) (known : List String)
  deriving DecidableEq, Repr

namespace ShapeError

/-- A list of names to choose from. -/
def oneOf (names : List String) : String :=
  "one of " ++ joined ", " (names.map fun name => "`" ++ name ++ "`")

def message : ShapeError → String
  | invalidType found expected =>
    "invalid type: " ++ found.describe ++ ", expected " ++ expected
  | invalidValue found expected =>
    "invalid value: " ++ found.describe ++ ", expected " ++ expected
  | invalidLength length expected =>
    "invalid length " ++ Nat.repr length ++ ", expected " ++ expected
  | missingField name => "missing field `" ++ name ++ "`"
  | duplicateField name => "duplicate field `" ++ name ++ "`"
  | unknownField name known => "unknown field `" ++ name ++ "`, expected " ++ oneOf known
  | unknownVariant name known => "unknown variant `" ++ name ++ "`, expected " ++ oneOf known

end ShapeError

end ContractBindings
